import ReactiveView.Proofs.Template.Restating

namespace ReactiveView

open Node

def openTokens : List PendingTag → List Token
  | [] => []
  | p :: outer => openTokens outer ++ startTokens p.kind p.name p.attrs p.props ++
      .tag ⟨p.name, p.kind, some .finish, some .start, 0⟩ :: tokensAll p.children

def bodyTokens : Option PendingTag → List Token
  | none => []
  | some p => startTokens p.kind p.name p.attrs p.props

namespace Builder

/-- The tokens of what has been built, apart from the body that is open. -/
def outerTokens (b : Builder) : List Token := tokensAll b.roots ++ openTokens b.opened

def tokens (b : Builder) : List Token := b.outerTokens ++ bodyTokens b.body

theorem outerTokens_push (b : Builder) (n : Node) :
    (b.push n).outerTokens = b.outerTokens ++ n.tokens := by
  obtain ⟨body, opened, roots⟩ := b
  cases opened with
  | nil => simp [push, outerTokens, openTokens, tokensAll_append, tokensAll]
  | cons p opened => simp [push, outerTokens, openTokens, tokensAll_append, tokensAll]

end Builder

structure PendingTag.Expressible (p : PendingTag) : Prop where
  props_eq_nil : p.kind ≠ .custom → p.props = []
  values : ∀ a ∈ p.props, a.value ≠ .empty
  children : ExpressibleAll p.children

structure Builder.Expressible (b : Builder) : Prop where
  roots : ExpressibleAll b.roots
  opened : ∀ p ∈ b.opened, p.Expressible
  body : ∀ p ∈ b.body, p.Expressible ∧ p.children = []

theorem PendingTag.Expressible.node {p : PendingTag} {n : Node} (h : p.Expressible)
    (hn : p.node = .ok n) : n.Expressible :=
  (isTag_of_node hn h.props_eq_nil).expressible_iff.mpr ⟨h.values, h.children⟩

namespace Builder

variable {b c : Builder} {t : Token} {ts : List Token} {n : Node}

theorem Expressible.push (h : b.Expressible) (hn : n.Expressible) : (b.push n).Expressible := by
  obtain ⟨body, opened, roots⟩ := b
  cases opened with
  | nil => exact ⟨expressibleAll_append.mpr ⟨h.roots, hn, trivial⟩, h.opened, h.body⟩
  | cons p opened =>
    obtain ⟨hp, hopened⟩ := List.forall_mem_cons.mp h.opened
    refine ⟨h.roots, List.forall_mem_cons.mpr ⟨?_, hopened⟩, h.body⟩
    exact ⟨hp.props_eq_nil, hp.values, expressibleAll_append.mpr ⟨hp.children, hn, trivial⟩⟩

theorem Accepts.expressible (h : Accepts b t c) (hb : b.Expressible) : c.Expressible := by
  cases h with
  | start =>
    refine ⟨hb.roots, hb.opened, fun p hp => ?_⟩
    cases hp
    exact ⟨⟨fun _ => rfl, fun _ ha => absurd ha List.not_mem_nil, trivial⟩, rfl⟩
  | finish hn =>
    have hp := (hb.body _ rfl).1.node hn
    exact Expressible.push ⟨hb.roots, hb.opened, fun p hp => by cases hp⟩ hp
  | content =>
    exact ⟨hb.roots, List.forall_mem_cons.mpr ⟨(hb.body _ rfl).1, hb.opened⟩,
      fun p hp => by cases hp⟩
  | close hn =>
    obtain ⟨hp, hopened⟩ := List.forall_mem_cons.mp hb.opened
    exact Expressible.push ⟨hb.roots, hopened, hb.body⟩ (hp.node hn)
  | attr ha =>
    obtain ⟨hp, hc⟩ := hb.body _ rfl
    refine ⟨hb.roots, hb.opened, fun q hq => ?_⟩
    cases hq
    exact ⟨⟨hp.props_eq_nil, hp.values, hp.children⟩, hc⟩
  | prop hk hne ha =>
    obtain ⟨hp, hc⟩ := hb.body _ rfl
    refine ⟨hb.roots, hb.opened, fun q hq => ?_⟩
    cases hq
    refine ⟨⟨fun hk' => absurd hk hk', List.forall_mem_append.mpr ⟨hp.values, ?_⟩, hp.children⟩, hc⟩
    exact List.forall_mem_singleton.mpr (AttrToken.eq_ofValue ha hne).1
  | blank => exact hb
  | text hne => exact hb.push hne
  | serial => exact hb.push trivial

end Builder

namespace Restated

variable {late : Bool} {before ts : List Token}

theorem tag (before : List Token) (t : TagToken) :
    Restated late (before ++ [.tag t]) (before ++ [.tag { t with offset := 0 }]) :=
  of (.offset t 0)

theorem tag_end (before : List Token) {t : TagToken} (h : t.isEnd = true) (name : String)
    (kind : TagKind) : Restated late (before ++ [.tag t])
      (before ++ [.tag ⟨name, kind, t.body, t.children, 0⟩]) :=
  (of (.ending t h name kind)).trans (tag before _)

/-- A token that may change places with each of some tokens may be moved in front of them all. -/
theorem move (before ts : List Token) (t : Token) (h : ∀ token ∈ ts, ∀ before,
    Restated late (before ++ [token, t]) (before ++ [t, token])) :
    Restated late (before ++ ts ++ [t]) (before ++ t :: ts) := by
  induction ts generalizing before with
  | nil => simpa using refl (before ++ [t])
  | cons token ts ih =>
    obtain ⟨htoken, hts⟩ := List.forall_mem_cons.mp h
    have hrest := ih (before ++ [token]) hts
    have hfirst := (htoken before).append ts
    simp only [List.append_assoc, List.cons_append, List.nil_append] at hrest hfirst ⊢
    exact hrest.trans hfirst

theorem attr (before : List Token) {t : AttrToken} {a : Attr} (h : t.attr = .ok a) :
    Restated late (before ++ [.attr t]) (before ++ [a.token]) := by
  obtain ⟨hk, rfl⟩ | ⟨-, rfl⟩ := AttrToken.attr_eq_ok h
  · obtain ⟨name, kind, value⟩ := t
    obtain rfl : kind = .empty := hk
    exact of (.value name value none)
  · exact refl _

theorem startTokens_attr (before : List Token) (kind : TagKind) (name : String)
    (attrs props : List Attr) {t : AttrToken} {a : Attr} (h : t.attr = .ok a) :
    Restated late (before ++ startTokens kind name attrs props ++ [.attr t])
      (before ++ startTokens kind name (attrs ++ [a]) props) := by
  have hswap : ∀ token ∈ props.map Attr.propToken, ∀ before,
      Restated late (before ++ [token, a.token]) (before ++ [a.token, token]) := by
    intro token hm before
    obtain ⟨p, -, rfl⟩ := List.mem_map.mp hm
    exact (of (.swap _ _)).symm
  have hmove := move (before ++ .tag ⟨name, kind, some .start, none, 0⟩ :: attrs.map Attr.token)
    (props.map Attr.propToken) a.token hswap
  refine (attr _ h).trans ?_
  simpa [startTokens] using hmove

/-- A closing tag counts as standing in front of the body that it stands in. -/
theorem bodyTokens_close (before : List Token) (body : Option PendingTag) {t : TagToken}
    (hc : t.closes = true) (hl : late = true ∨ body = none) :
    Restated late (before ++ bodyTokens body ++ [.tag t]) (before ++ .tag t :: bodyTokens body) := by
  cases body with
  | none => simpa [bodyTokens] using refl (before ++ [.tag t])
  | some p =>
    refine move before _ _ fun token hm before => of (.late (hl.resolve_right (by simp)) ?_ hc)
    simp only [bodyTokens, startTokens, List.mem_cons, List.mem_append, List.mem_map] at hm
    obtain rfl | ⟨a, -, rfl⟩ | ⟨a, -, rfl⟩ := hm <;> rfl

theorem tagTokens (before : List Token) (kind : TagKind) (name : String) (attrs props : List Attr)
    (content : List Token) :
    Restated late (before ++ ReactiveView.tagTokens kind name attrs props content)
      (before ++ startTokens kind name attrs props ++
        .tag ⟨name, kind, some .finish, some .start, 0⟩ ::
          (content ++ [.tag ⟨name, kind, none, some .finish, 0⟩])) := by
  rw [ReactiveView.tagTokens, ← List.append_assoc]
  cases content with
  | nil => exact of (.childless name kind 0)
  | cons token content => exact refl _

end Restated

namespace Builder

variable {b c : Builder} {t : Token} {ts : List Token}

theorem tokens_of_none (hb : b.body = none) : b.tokens = b.outerTokens := by
  rw [tokens, hb, bodyTokens, List.append_nil]

theorem restated_outerTokens_close {late : Bool} {body : Option PendingTag} {p : PendingTag}
    {opened : List PendingTag} {roots : List Node} {n : Node} {t : TagToken}
    (hn : p.node = .ok n) (hp : p.Expressible) (hc : t.closes = true) :
    Restated late (outerTokens ⟨body, p :: opened, roots⟩ ++ [.tag t])
      (outerTokens ⟨body, opened, roots⟩ ++ n.tokens) := by
  obtain ⟨name, kind, _ | _, _ | _ | _, offset⟩ := t <;> try cases hc
  rw [(isTag_of_node hn hp.props_eq_nil).tokens_eq]
  refine (Restated.tag_end _ rfl p.name p.kind).trans ?_
  refine Restated.trans ?_ (Restated.tagTokens _ _ _ _ _ _).symm
  simpa [outerTokens, openTokens] using Restated.refl _

/-- What has been built and the token that is taken next say what has then been built. -/
theorem Accepts.restated {late : Bool} {before : List Token} (h : Accepts b t c)
    (hb : b.Expressible) (hbody : bodyOpen before = b.body.isSome)
    (hbefore : Restated late before b.tokens)
    (hl : late = true ∨ (b.body.isSome && t.closes) = false) :
    Restated late (before ++ [t]) c.tokens := by
  have hstep := hbefore.append [t]
  cases h with
  | start =>
    refine hstep.trans ((Restated.tag _ _).trans ?_)
    simpa [tokens, outerTokens, bodyTokens, startTokens] using Restated.refl _
  | @finish _ _ _ p opened roots n hn =>
    obtain ⟨hp, hc⟩ := hb.body p rfl
    refine hstep.trans ((Restated.tag_end _ rfl p.name p.kind).trans ?_)
    rw [tokens_of_none (body_push ⟨none, opened, roots⟩ n), outerTokens_push,
      (isTag_of_node hn hp.props_eq_nil).tokens_eq, hc]
    simpa [tokens, outerTokens, bodyTokens, tagTokens, tokensAll] using Restated.refl _
  | @content _ _ _ p opened roots =>
    obtain ⟨hp, hc⟩ := hb.body p rfl
    refine hstep.trans ((Restated.tag_end _ rfl p.name p.kind).trans ?_)
    simpa [tokens, outerTokens, openTokens, bodyTokens, hc, tokensAll] using Restated.refl _
  | @close name kind offset body p opened roots n hn =>
    obtain ⟨hp, -⟩ := List.forall_mem_cons.mp hb.opened
    have hlate : late = true ∨ body = none := hl.imp_right fun h => by
      simpa [Token.closes, TagToken.closes] using h
    refine hstep.trans ((Restated.bodyTokens_close _ body rfl hlate).trans ?_)
    have hclose : Restated late (outerTokens ⟨body, p :: opened, roots⟩ ++
          [.tag ⟨name, kind, none, some .finish, offset⟩] ++ bodyTokens body)
        (outerTokens ⟨body, opened, roots⟩ ++ n.tokens ++ bodyTokens body) :=
      (restated_outerTokens_close hn hp rfl).append (bodyTokens body)
    rw [tokens, body_push, outerTokens_push]
    simpa using hclose
  | @attr t a p _ _ ha =>
    exact hstep.trans (Restated.startTokens_attr _ p.kind p.name p.attrs p.props ha)
  | @prop t a p _ _ hk hne ha =>
    obtain rfl := (AttrToken.eq_ofValue ha hne).2
    refine hstep.trans ?_
    simpa [tokens, outerTokens, bodyTokens, startTokens, Attr.propToken] using Restated.refl _
  | blank =>
    have hblank : Restated late (before ++ []) (before ++ [.text ""]) := .of (.text hbody)
    rw [List.append_nil] at hblank
    exact hblank.symm.trans hbefore
  | text hne | serial =>
    rw [tokens_of_none (body_push _ _), outerTokens_push]
    refine hstep.trans ?_
    simpa [tokens, outerTokens, bodyTokens, Node.tokens] using Restated.refl _

theorem restated_of_foldlM {late : Bool} (before : List Token) (h : ts.foldlM token b = .ok c)
    (hb : b.Expressible) (hbody : bodyOpen before = b.body.isSome)
    (hbefore : Restated late before b.tokens)
    (hl : late = true ∨ closesOutside b.body.isSome ts = true) :
    c.Expressible ∧ Restated late (before ++ ts) c.tokens := by
  induction ts generalizing b before with
  | nil =>
    cases h
    exact ⟨hb, (List.append_nil before).symm ▸ hbefore⟩
  | cons t ts ih =>
    rw [List.foldlM_cons] at h
    cases ht : b.token t with
    | error e =>
      rw [ht] at h
      cases h
    | ok d =>
      rw [ht] at h
      have ha := accepts_of_token ht
      rw [closesOutside, Bool.and_eq_true, Bool.not_eq_true'] at hl
      have hd := ha.restated hb hbody hbefore (hl.imp_right And.left)
      have hbody' : bodyOpen (before ++ [t]) = d.body.isSome := by
        rw [ha.isSome_body, ← hbody, bodyOpen, List.foldl_append]
        rfl
      rw [← ha.isSome_body] at hl
      have hrest := ih (before ++ [t]) h (ha.expressible hb) hbody' hd (hl.imp_right And.right)
      rwa [List.append_assoc] at hrest

end Builder

theorem restated_of_parse {late : Bool} {ts : List Token} {t : Template} (h : parse ts = .ok t)
    (hl : late = true ∨ closesOutside false ts = true) :
    t.root.Expressible ∧ Restated late ts t.tokens := by
  have hrun := Builder.run?_eq_some_iff.mp (parse_eq_ok_iff.mp h)
  obtain ⟨he, hr⟩ := Builder.restated_of_foldlM [] hrun
    ⟨trivial, fun p hp => (List.not_mem_nil hp).elim, fun p hp => by cases hp⟩ rfl (.refl []) hl
  refine ⟨he.roots.1, ?_⟩
  simpa [Builder.tokens, Builder.outerTokens, openTokens, bodyTokens, tokensAll,
    Template.tokens] using hr

/-- Tokens of which no closing tag stands in a body give a template exactly if it can be written as
tokens and they say the same as its own ones. Where closing tags stand in bodies, they count as
standing in front of these. Tokens that say the same give the same template. -/
theorem parse_iff_restated (ts : List Token) (t : Template) :
    (parse ts = .ok t ∧ closesOutside false ts = true ↔
        t.root.Expressible ∧ Restated false ts t.tokens) ∧
      (parse ts = .ok t ↔ t.root.Expressible ∧ Restated true ts t.tokens) ∧
      ∀ ts', Restated true ts ts' → (parse ts = .ok t ↔ parse ts' = .ok t) := by
  refine ⟨⟨fun ⟨h, hc⟩ => restated_of_parse h (.inr hc), fun ⟨he, hr⟩ => ⟨?_, ?_⟩⟩,
    ⟨fun h => restated_of_parse h (.inl rfl), fun ⟨he, hr⟩ => ?_⟩,
    fun ts' hr => parse_of_restated hr t⟩
  · exact (parse_of_restated hr t).mpr (parse_tokens he)
  · exact hr.closesOutside_eq.trans (tidy_tokens t.root).closes
  · exact (parse_of_restated hr t).mpr (parse_tokens he)

/-- A card with an attribute behind a prop, a value that does not count, an empty text, and a closing
tag of another name. -/
def cardTokens : List Token := [
  .tag ⟨"Card", .custom, some .start, none, 0⟩, .prop ⟨"title", .string, some "x"⟩,
  .attr ⟨"wide", .empty, some "y"⟩, .tag ⟨"Card", .custom, some .finish, some .start, 20⟩, .text "",
  .tag ⟨"div", .regular, none, some .finish, 21⟩]

def card : Template := ⟨.custom "Card" [⟨"wide", .empty⟩] [⟨"title", .literal "x"⟩] []⟩

theorem parse_iff_restated_card : parse cardTokens = .ok card ∧ parse card.tokens = .ok card ∧
    closesOutside false cardTokens = true ∧ Restated false cardTokens card.tokens := by
  have hcard : parse cardTokens = .ok card := rfl
  have hc : closesOutside false cardTokens = true := rfl
  obtain ⟨he, hr⟩ := (parse_iff_restated cardTokens card).1.mp ⟨hcard, hc⟩
  exact ⟨hcard, ((parse_iff_restated cardTokens card).2.2 _ hr.to_late).mp hcard, hc, hr⟩

/-- A list whose first item is closed in the body of a tag that stands in it. -/
def strayTokens : List Token := [
  .tag ⟨"ul", .regular, some .start, none, 0⟩, .tag ⟨"ul", .regular, some .finish, some .start, 3⟩,
  .tag ⟨"li", .regular, some .start, none, 4⟩, .tag ⟨"li", .regular, some .finish, some .start, 7⟩,
  .tag ⟨"b", .regular, some .start, none, 8⟩, .tag ⟨"li", .regular, none, some .finish, 10⟩,
  .tag ⟨"b", .regular, some .finish, none, 15⟩, .tag ⟨"ul", .regular, none, some .finish, 17⟩]

theorem not_restated_stray : ∃ t, parse strayTokens = .ok t ∧ ¬ Restated false strayTokens t.tokens := by
  refine ⟨⟨.element "ul" [] [.element "li" [] [], .element "b" [] []]⟩, rfl, fun h => ?_⟩
  have hc := h.closesOutside_eq.trans (tidy_tokens _).closes
  cases hc

end ReactiveView
