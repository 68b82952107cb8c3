import Mathlib.Data.String.Basic
import ReactiveView.Proofs.Template.Inverse
import ReactiveView.Proofs.Template.Running

namespace ReactiveView

open Node

def AttrToken.reference? (t : AttrToken) : Option String :=
  if t.kind = .serial then t.value else none

def Token.reference? : Token → Option String
  | .attr t | .prop t => t.reference?
  | .serial reference => some reference
  | .tag _ | .text _ => none

def referencesOf (ts : List Token) : List String := ts.filterMap Token.reference?

/-- Tokens with the props of every body behind its attributes, those from before included that
have been held back. -/
def attrsFirst : List Token → List Token → List Token
  | props, [] => props
  | props, .attr a :: rest => .attr a :: attrsFirst props rest
  | props, .prop p :: rest => attrsFirst (props ++ [.prop p]) rest
  | props, token :: rest => props ++ token :: attrsFirst [] rest

/-- In no body a prop that names a reference stands in front of an attribute that names one. -/
def PropsLast (ts : List Token) : Prop :=
  ∀ before p rest, ts = before ++ .prop p :: rest → p.reference? ≠ none →
    ∀ a, .attr a ∈ rest.takeWhile Token.inBody → a.reference? = none

section Lists

variable {token : Token} {ts props : List Token}

@[simp]
theorem referencesOf_nil : referencesOf [] = [] := rfl

@[simp]
theorem referencesOf_append (ts more : List Token) :
    referencesOf (ts ++ more) = referencesOf ts ++ referencesOf more := List.filterMap_append

@[simp]
theorem referencesOf_cons (token : Token) (ts : List Token) :
    referencesOf (token :: ts) = token.reference?.toList ++ referencesOf ts := by
  rw [referencesOf, List.filterMap_cons]
  cases token.reference? <;> rfl

theorem attrsFirst_of_not_inBody (h : token.inBody = false) (props rest : List Token) :
    attrsFirst props (token :: rest) = props ++ token :: attrsFirst [] rest := by
  cases token with
  | attr _ | prop _ => cases h
  | tag _ | text _ | serial _ => rfl

theorem perm_attrsFirst (props ts : List Token) : (attrsFirst props ts).Perm (props ++ ts) := by
  induction ts generalizing props with
  | nil => rw [attrsFirst, List.append_nil]
  | cons token ts ih =>
    cases token with
    | attr a => exact ((ih props).cons _).trans List.perm_middle.symm
    | prop p =>
      have hp := ih (props ++ [.prop p])
      rwa [List.append_assoc] at hp
    | tag _ | text _ | serial _ => exact ((ih []).cons _).append_left props

theorem PropsLast.tail (h : PropsLast (token :: ts)) : PropsLast ts := by
  intro before p rest he
  exact h (token :: before) p rest (congrArg (List.cons token) he)

theorem referencesOf_attrsFirst (h : PropsLast ts) (hprops : referencesOf props ≠ [] →
    ∀ a, .attr a ∈ ts.takeWhile Token.inBody → a.reference? = none) :
    referencesOf (attrsFirst props ts) = referencesOf props ++ referencesOf ts := by
  induction ts generalizing props with
  | nil => rw [attrsFirst, referencesOf_nil, List.append_nil]
  | cons token ts ih =>
    cases token with
    | attr a =>
      have hrest := ih h.tail fun (hne : referencesOf props ≠ []) a ha =>
        hprops hne a (List.mem_cons_of_mem _ ha)
      rw [attrsFirst, referencesOf_cons, referencesOf_cons, hrest]
      by_cases hne : referencesOf props = []
      · rw [hne, List.nil_append, List.nil_append]
      · have ha : (Token.attr a).reference? = none := hprops hne a List.mem_cons_self
        rw [ha, Option.toList_none, List.nil_append, List.nil_append]
    | prop p =>
      -- If the prop names a reference, no attribute behind it in the body does.
      rw [attrsFirst, ih h.tail]
      · simp
      · intro hne a ha
        by_cases hp : p.reference? = none
        · refine hprops (fun hnil => hne ?_) a (List.mem_cons_of_mem _ ha)
          have hnone : (Token.prop p).reference? = none := hp
          simp [hnil, hnone]
        · exact h [] p ts rfl hp a ha
    | tag _ | text _ | serial _ =>
      rw [attrsFirst_of_not_inBody rfl, referencesOf_append, referencesOf_cons, referencesOf_cons,
        ih h.tail fun hne => absurd rfl hne]
      rfl

end Lists

theorem reference?_ofValue (a : Attr) :
    (AttrToken.ofValue a.name a.value).reference? = a.reference? := by
  obtain ⟨name, value⟩ := a
  cases value <;> rfl

theorem reference?_of_attr {t : AttrToken} {a : Attr} (h : t.attr = .ok a) :
    t.reference? = a.reference? := by
  obtain ⟨hk, rfl⟩ | ⟨-, rfl⟩ := AttrToken.attr_eq_ok h
  · rw [AttrToken.reference?, hk]
    rfl
  · exact reference?_ofValue a

@[simp]
theorem reference?_tag (t : TagToken) : (Token.tag t).reference? = none := rfl

@[simp]
theorem reference?_token (a : Attr) : a.token.reference? = a.reference? := reference?_ofValue a

@[simp]
theorem reference?_propToken (a : Attr) : a.propToken.reference? = a.reference? :=
  reference?_ofValue a

@[simp]
theorem referencesOf_attrs (attrs : List Attr) :
    referencesOf (attrs.map Attr.token) = attrs.filterMap Attr.reference? := by
  rw [referencesOf, List.filterMap_map]
  exact congrArg (attrs.filterMap ·) (funext reference?_token)

@[simp]
theorem referencesOf_props (props : List Attr) :
    referencesOf (props.map Attr.propToken) = props.filterMap Attr.reference? := by
  rw [referencesOf, List.filterMap_map]
  exact congrArg (props.filterMap ·) (funext reference?_propToken)

theorem referencesOf_tagTokens (kind : TagKind) (name : String) (attrs props : List Attr)
    (content : List Token) : referencesOf (tagTokens kind name attrs props content) =
      referencesOf (startTokens kind name attrs props) ++ referencesOf content := by
  rw [tagTokens, referencesOf_append]
  cases content with
  | nil => rfl
  | cons token content => simp

namespace Node

mutual

theorem referencesOf_tokens : ∀ n : Node, referencesOf n.tokens = n.references
  | element _ _ children | custom _ _ _ children | command _ _ children => by
    simp [tokens, references, referencesOf_tagTokens, startTokens, referencesOf_tokensAll children,
      Attr.reference?]
  | literal _ | serial _ => rfl

theorem referencesOf_tokensAll : ∀ nodes : List Node, referencesOf (tokensAll nodes) = referencesAll nodes
  | [] => rfl
  | node :: rest => by
    rw [tokensAll, referencesAll, referencesOf_append, referencesOf_tokens node,
      referencesOf_tokensAll rest]

end

end Node

namespace Builder

variable {b c : Builder} {t : Token} {ts : List Token}

/-- The references of what has been built, and those of the tokens that follow as they will be
listed: the props of the body that is open wait for its last attribute. -/
def listed (b : Builder) (rest : List Token) : List String :=
  referencesOf b.outerTokens ++
    match b.body with
    | none => referencesOf (attrsFirst [] rest)
    | some p => referencesOf (p.attrs.map Attr.token) ++
        referencesOf (attrsFirst (p.props.map Attr.propToken) rest)

theorem listed_push {n : Node} (hb : b.body = none) (rest : List Token) : (b.push n).listed rest =
    referencesOf b.outerTokens ++ (referencesOf n.tokens ++ referencesOf (attrsFirst [] rest)) := by
  rw [listed, body_push, hb, outerTokens_push, referencesOf_append, List.append_assoc]

theorem Accepts.listed (h : Accepts b t c) (hb : b.Expressible)
    (hc : (b.body.isSome && t.closes) = false) (rest : List Token) :
    b.listed (t :: rest) = c.listed rest := by
  cases h with
  | start => rfl
  | finish hn =>
    -- The props that have waited come here, behind the last attribute, as in the node.
    obtain ⟨hp, hchildren⟩ := hb.body _ rfl
    rw [listed_push rfl, (isTag_of_node hn hp.props_eq_nil).tokens_eq, hchildren]
    simp [Builder.listed, attrsFirst, outerTokens, referencesOf_tagTokens, startTokens, tokensAll]
  | content =>
    obtain ⟨-, hchildren⟩ := hb.body _ rfl
    simp [Builder.listed, attrsFirst, outerTokens, openTokens, hchildren, startTokens, tokensAll]
  | @close _ _ _ body _ _ _ _ hn =>
    obtain rfl : body = none := by simpa [Token.closes, TagToken.closes] using hc
    have hp := hb.opened _ List.mem_cons_self
    rw [listed_push rfl, (isTag_of_node hn hp.props_eq_nil).tokens_eq]
    simp [Builder.listed, attrsFirst, outerTokens, openTokens, referencesOf_tagTokens]
  | @attr t a _ _ _ ha =>
    have href : (Token.attr t).reference? = a.reference? := reference?_of_attr ha
    simp [Builder.listed, attrsFirst, outerTokens, href]
  | @prop t a _ _ _ hk hne ha =>
    obtain rfl := (AttrToken.eq_ofValue ha hne).2
    simp [Builder.listed, attrsFirst, outerTokens, Attr.propToken]
  | blank => rfl
  | text hne | serial =>
    rw [listed_push rfl]
    simp [Builder.listed, attrsFirst, Node.tokens]

theorem listed_of_foldlM (h : ts.foldlM token b = .ok c) (hb : b.Expressible)
    (hc : closesOutside b.body.isSome ts = true) (rest : List Token) :
    b.listed (ts ++ rest) = c.listed rest := by
  induction ts generalizing b with
  | nil =>
    cases h
    rfl
  | cons t ts ih =>
    rw [List.foldlM_cons] at h
    cases ht : b.token t with
    | error e =>
      rw [ht] at h
      cases h
    | ok d =>
      rw [ht] at h
      have ha := accepts_of_token ht
      rw [closesOutside, Bool.and_eq_true, Bool.not_eq_true'] at hc
      rw [← ha.isSome_body] at hc
      exact (ha.listed hb hc.1 _).trans (ih h (ha.expressible hb) hc.2)

end Builder

namespace Scanner

variable {s t : Scanner} {o : Option Token} {ts : List Token} {rest : List Char}
  {body : Option OpenTag} {children : List OpenTag}

theorem Moves.closesOutside (h : Moves s o rest body children) :
    closesOutside s.body.isSome o.toList = true ∧
      o.toList.foldl Token.bodyAfter s.body.isSome = body.isSome := by
  cases h with
  | closeBody hb hu hr | openChildren hb hr | prop hb hk hn hne hu hr | attr hb hn hu hr he
  | closeTag hb hc hw hr | openTag hb hu hn hr ha | serial hb hn hr =>
    rw [hb]
    exact ⟨rfl, rfl⟩
  | text hb hne hw hm hr =>
    rw [hb]
    split <;> exact ⟨rfl, rfl⟩

theorem Reads.closesOutside (h : Reads s ts t) :
    ReactiveView.closesOutside s.body.isSome ts = true := by
  induction h with
  | refl s => rfl
  | step hc h _ ih =>
    obtain ⟨ho, hbody⟩ := (moves_of_step hc h).closesOutside
    rw [closesOutside_append, ho, hbody, ih]
    rfl

end Scanner

theorem closesOutside_of_tokenize {source : String} {ts : List Token}
    (h : tokenize source = .ok ts) : closesOutside false ts = true := by
  obtain ⟨t, ht, -⟩ := Scanner.exists_reads_of_ok (tokenize_eq_ok_iff.mp h)
  exact ht.closesOutside

theorem references_of_parse {ts : List Token} {t : Template} (h : parse ts = .ok t)
    (hc : closesOutside false ts = true) : t.references = referencesOf (attrsFirst [] ts) := by
  have hrun := Builder.run?_eq_some_iff.mp (parse_eq_ok_iff.mp h)
  have hlisted := Builder.listed_of_foldlM hrun
    ⟨trivial, fun p hp => (List.not_mem_nil hp).elim, fun p hp => by cases hp⟩ hc []
  rw [List.append_nil] at hlisted
  calc t.references
      = Builder.listed ⟨none, [], [t.root]⟩ [] := by
        simp [Builder.listed, Builder.outerTokens, openTokens, tokensAll, attrsFirst,
          referencesOf_tokens, Template.references]
    _ = Builder.empty.listed ts := hlisted.symm
    _ = referencesOf (attrsFirst [] ts) := rfl

/-- The references of a template are those of the tokens of its source, each as often. They come in
the order of the tokens, but those of the props of a component come behind those of its attributes.
So they are in document order if no prop that names a reference is written in front of an attribute
that names one. -/
theorem references_of_compile (source : String) (t : Template) (h : compile source = .ok t) :
    ∃ ts, tokenize source = .ok ts ∧ t.references = referencesOf (attrsFirst [] ts) ∧
      t.references.Perm (referencesOf ts) ∧ (PropsLast ts → t.references = referencesOf ts) := by
  obtain ⟨ts, hts, ht⟩ := compile_eq_ok_iff.mp h
  have hlist := references_of_parse ht (closesOutside_of_tokenize hts)
  refine ⟨ts, hts, hlist, ?_, fun hlast => ?_⟩
  · rw [hlist]
    exact (perm_attrsFirst [] ts).filterMap _
  · rw [hlist, referencesOf_attrsFirst hlast fun hne => absurd rfl hne]
    rfl

theorem references_of_compile_card :
    compile "<Card wide=\x7bww\x7d $title=\x7btt\x7d>\x7bxx\x7d</Card>" =
      .ok ⟨.custom "Card" [⟨"wide", .serial "ww"⟩] [⟨"title", .serial "tt"⟩] [.serial "xx"]⟩ ∧
    ∃ ts, tokenize "<Card wide=\x7bww\x7d $title=\x7btt\x7d>\x7bxx\x7d</Card>" = .ok ts ∧
      ["ww", "tt", "xx"] = referencesOf (attrsFirst [] ts) ∧
      ["ww", "tt", "xx"].Perm (referencesOf ts) ∧
      (PropsLast ts → ["ww", "tt", "xx"] = referencesOf ts) := by
  have h : compile "<Card wide=\x7bww\x7d $title=\x7btt\x7d>\x7bxx\x7d</Card>" =
      .ok ⟨.custom "Card" [⟨"wide", .serial "ww"⟩] [⟨"title", .serial "tt"⟩] [.serial "xx"]⟩ :=
    compile_eq_ok_iff.mpr ⟨[.tag ⟨"Card", .custom, some .start, none, 0⟩,
      .attr ⟨"wide", .serial, some "ww"⟩, .prop ⟨"title", .serial, some "tt"⟩,
      .tag ⟨"Card", .custom, some .finish, some .start, 27⟩, .serial "xx",
      .tag ⟨"Card", .custom, none, some .finish, 32⟩], by decide +kernel, rfl⟩
  exact ⟨h, references_of_compile _ _ h⟩

/-- A component whose attribute is written behind its prop: the template lists it first. -/
theorem not_references_in_order : ∃ ts t,
    tokenize "<Card $title=\x7btt\x7d wide=\x7bww\x7d/>" = .ok ts ∧
    compile "<Card $title=\x7btt\x7d wide=\x7bww\x7d/>" = .ok t ∧
    referencesOf ts = ["tt", "ww"] ∧ t.references = ["ww", "tt"] := by
  have h : tokenize "<Card $title=\x7btt\x7d wide=\x7bww\x7d/>" =
      .ok [.tag ⟨"Card", .custom, some .start, none, 0⟩, .prop ⟨"title", .serial, some "tt"⟩,
        .attr ⟨"wide", .serial, some "ww"⟩, .tag ⟨"Card", .custom, some .finish, none, 27⟩] := by
    decide +kernel
  exact ⟨_, ⟨.custom "Card" [⟨"wide", .serial "ww"⟩] [⟨"title", .serial "tt"⟩] []⟩, h,
    compile_eq_ok_iff.mpr ⟨_, h, rfl⟩, by decide, by decide⟩

end ReactiveView
