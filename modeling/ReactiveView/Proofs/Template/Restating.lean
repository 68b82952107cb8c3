import Mathlib.Logic.Relation
import ReactiveView.Proofs.Template.Tokens

namespace ReactiveView

open Node

namespace TagToken

def isEnd (t : TagToken) : Bool :=
  match t.body, t.children with
  | some .finish, none | some .finish, some .start | none, some .finish => true
  | _, _ => false

def closes (t : TagToken) : Bool := t.body.isNone && t.children = some .finish

end TagToken

namespace Token

def closes : Token → Bool
  | tag t => t.closes
  | _ => false

def opensBody : Token → Bool
  | tag t => t.body = some .start && t.children.isNone
  | attr _ | prop _ => true
  | _ => false

/-- Whether a body is open behind a token. Closing tags leave it open. -/
def bodyAfter (inside : Bool) : Token → Bool
  | tag ⟨_, _, some .start, _, _⟩ => true
  | tag ⟨_, _, some .finish, _, _⟩ => false
  | _ => inside

end Token

def bodyOpen (ts : List Token) : Bool := ts.foldl Token.bodyAfter false

/-- No closing tag stands in a body. -/
def closesOutside : Bool → List Token → Bool
  | _, [] => true
  | inside, token :: rest => !(inside && token.closes) && closesOutside (token.bodyAfter inside) rest

/-- Tokens behind given ones that say the same. If they may be late, a closing tag counts for
nothing more where it stands in a body than in front of it. -/
inductive Restates (late : Bool) (before : List Token) : List Token → List Token → Prop
  | offset (t : TagToken) (offset : Nat) : Restates late before [.tag t] [.tag { t with offset }]
  | ending (t : TagToken) (h : t.isEnd = true) (name : String) (kind : TagKind) :
      Restates late before [.tag t] [.tag { t with name, kind }]
  | childless (name : String) (kind : TagKind) (offset : Nat) :
      Restates late before [.tag ⟨name, kind, some .finish, none, offset⟩]
        [.tag ⟨name, kind, some .finish, some .start, offset⟩,
          .tag ⟨name, kind, none, some .finish, offset⟩]
  | text (h : bodyOpen before = false) : Restates late before [] [.text ""]
  | value (name : String) (value value' : Option String) :
      Restates late before [.attr ⟨name, .empty, value⟩] [.attr ⟨name, .empty, value'⟩]
  | swap (a p : AttrToken) : Restates late before [.attr a, .prop p] [.prop p, .attr a]
  | late {token : Token} {t : TagToken} (hl : late = true) (ht : token.opensBody = true)
      (hc : t.closes = true) : Restates late before [token, .tag t] [.tag t, token]

inductive RestatesOnce (late : Bool) : List Token → List Token → Prop
  | mk {before ts ts' : List Token} (h : Restates late before ts ts') (after : List Token) :
      RestatesOnce late (before ++ ts ++ after) (before ++ ts' ++ after)

def Restated (late : Bool) : List Token → List Token → Prop :=
  Relation.EqvGen (RestatesOnce late)

namespace Restated

variable {late : Bool} {before ts ts' ts'' : List Token}

theorem refl (ts : List Token) : Restated late ts ts := Relation.EqvGen.refl ts

theorem symm (h : Restated late ts ts') : Restated late ts' ts :=
  Relation.EqvGen.symm _ _ h

theorem trans (h : Restated late ts ts') (h' : Restated late ts' ts'') : Restated late ts ts'' :=
  Relation.EqvGen.trans _ _ _ h h'

theorem of (h : Restates late before ts ts') : Restated late (before ++ ts) (before ++ ts') := by
  have hs := RestatesOnce.mk h []
  rw [List.append_nil, List.append_nil] at hs
  exact .rel _ _ hs

theorem append (h : Restated late ts ts') (after : List Token) :
    Restated late (ts ++ after) (ts' ++ after) := by
  induction h with
  | rel ts ts' h =>
    cases h with
    | mk h more =>
      rw [List.append_assoc, List.append_assoc _ more]
      exact .rel _ _ (.mk h (more ++ after))
  | refl ts => exact refl _
  | symm ts ts' _ ih => exact ih.symm
  | trans _ _ _ _ _ ih ih' => exact ih.trans ih'

theorem to_late (h : Restated false ts ts') : Restated late ts ts' := by
  refine Relation.EqvGen.mono (fun ts ts' h => ?_) _ _ h
  cases h with
  | mk h after =>
    refine .mk ?_ after
    cases h with
    | offset t offset => exact .offset t offset
    | ending t h name kind => exact .ending t h name kind
    | childless name kind offset => exact .childless name kind offset
    | text h => exact .text h
    | value name value value' => exact .value name value value'
    | swap a p => exact .swap a p
    | late hl _ _ => cases hl

end Restated

theorem AttrToken.attr_eq_ok {t : AttrToken} {a : Attr} (h : t.attr = .ok a) :
    (t.kind = .empty ∧ a = ⟨t.name, .empty⟩) ∨
      (a.value ≠ .empty ∧ t = .ofValue a.name a.value) := by
  obtain ⟨name, kind, value⟩ := t
  unfold AttrToken.attr at h
  split at h
  · rename_i hk
    obtain rfl : kind = .empty := hk
    cases h
    exact .inl ⟨rfl, rfl⟩
  · rename_i hk hv
    obtain rfl : kind = .string := hk
    obtain rfl : value = _ := hv
    cases h
    exact .inr ⟨AttrValue.noConfusion, rfl⟩
  · rename_i hk hv
    obtain rfl : kind = .serial := hk
    obtain rfl : value = _ := hv
    cases h
    exact .inr ⟨AttrValue.noConfusion, rfl⟩
  · cases h

theorem AttrToken.eq_ofValue {t : AttrToken} {a : Attr} (h : t.attr = .ok a)
    (hne : t.kind ≠ .empty) : a.value ≠ .empty ∧ t = .ofValue a.name a.value :=
  (attr_eq_ok h).resolve_left fun he => hne he.1

namespace Builder

/-- What a token does to a builder that takes it. -/
inductive Accepts : Builder → Token → Builder → Prop
  | start {name : String} {kind : TagKind} {offset : Nat} {opened : List PendingTag}
      {roots : List Node} :
      Accepts ⟨none, opened, roots⟩ (.tag ⟨name, kind, some .start, none, offset⟩)
        ⟨some ⟨name, kind, [], [], []⟩, opened, roots⟩
  | finish {name : String} {kind : TagKind} {offset : Nat} {p : PendingTag}
      {opened : List PendingTag} {roots : List Node} {n : Node} (hn : p.node = .ok n) :
      Accepts ⟨some p, opened, roots⟩ (.tag ⟨name, kind, some .finish, none, offset⟩)
        (push ⟨none, opened, roots⟩ n)
  | content {name : String} {kind : TagKind} {offset : Nat} {p : PendingTag}
      {opened : List PendingTag} {roots : List Node} :
      Accepts ⟨some p, opened, roots⟩ (.tag ⟨name, kind, some .finish, some .start, offset⟩)
        ⟨none, p :: opened, roots⟩
  | close {name : String} {kind : TagKind} {offset : Nat} {body : Option PendingTag} {p : PendingTag}
      {opened : List PendingTag} {roots : List Node} {n : Node} (hn : p.node = .ok n) :
      Accepts ⟨body, p :: opened, roots⟩ (.tag ⟨name, kind, none, some .finish, offset⟩)
        (push ⟨body, opened, roots⟩ n)
  | attr {t : AttrToken} {a : Attr} {p : PendingTag} {opened : List PendingTag} {roots : List Node}
      (ha : t.attr = .ok a) :
      Accepts ⟨some p, opened, roots⟩ (.attr t)
        ⟨some { p with attrs := p.attrs ++ [a] }, opened, roots⟩
  | prop {t : AttrToken} {a : Attr} {p : PendingTag} {opened : List PendingTag} {roots : List Node}
      (hk : p.kind = .custom) (hne : t.kind ≠ .empty) (ha : t.attr = .ok a) :
      Accepts ⟨some p, opened, roots⟩ (.prop t)
        ⟨some { p with props := p.props ++ [a] }, opened, roots⟩
  | blank {opened : List PendingTag} {roots : List Node} :
      Accepts ⟨none, opened, roots⟩ (.text "") ⟨none, opened, roots⟩
  | text {value : String} {opened : List PendingTag} {roots : List Node} (hne : value ≠ "") :
      Accepts ⟨none, opened, roots⟩ (.text value) (push ⟨none, opened, roots⟩ (.literal value))
  | serial {reference : String} {opened : List PendingTag} {roots : List Node} :
      Accepts ⟨none, opened, roots⟩ (.serial reference)
        (push ⟨none, opened, roots⟩ (.serial reference))

theorem exists_of_map_eq_ok {ε α β : Type} {x : Except ε α} {f : α → β} {b : β}
    (h : x.map f = .ok b) : ∃ a, x = .ok a ∧ f a = b := by
  cases x with
  | error e => cases h
  | ok a =>
    cases h
    exact ⟨a, rfl, rfl⟩

theorem accepts_of_tag {b c : Builder} {t : TagToken} (h : b.tag t = .ok c) :
    Accepts b (.tag t) c := by
  obtain ⟨body, opened, roots⟩ := b
  obtain ⟨name, kind, body', children', offset⟩ := t
  simp only [tag] at h
  split at h
  · cases body with
    | some p => cases h
    | none =>
      cases h
      exact .start
  · cases body with
    | none => cases h
    | some p =>
      obtain ⟨n, hn, rfl⟩ := exists_of_map_eq_ok h
      exact .finish hn
  · cases body with
    | none => cases h
    | some p =>
      cases h
      exact .content
  · cases opened with
    | nil => cases h
    | cons p opened =>
      obtain ⟨n, hn, rfl⟩ := exists_of_map_eq_ok h
      exact .close hn
  · cases h

theorem accepts_of_prop {b c : Builder} {t : AttrToken} (h : b.prop t = .ok c) :
    Accepts b (.prop t) c := by
  obtain ⟨_ | p, opened, roots⟩ := b
  · cases h
  · simp only [prop] at h
    split at h
    · cases h
    · rename_i hk
      split at h
      · cases h
      · rename_i hne
        obtain ⟨a, ha, rfl⟩ := exists_of_map_eq_ok h
        exact .prop (Decidable.not_not.mp hk) hne ha

theorem accepts_of_token {b c : Builder} {t : Token} (h : b.token t = .ok c) : Accepts b t c := by
  cases t with
  | tag t => exact accepts_of_tag h
  | prop t => exact accepts_of_prop h
  | attr t =>
    obtain ⟨_ | p, opened, roots⟩ := b
    · cases h
    · obtain ⟨a, ha, rfl⟩ := exists_of_map_eq_ok h
      exact .attr ha
  | text value =>
    obtain ⟨_ | p, opened, roots⟩ := b
    · by_cases hv : value = ""
      · subst hv
        cases h
        exact .blank
      · rw [token_text rfl hv] at h
        cases h
        exact .text hv
    · cases h
  | serial reference =>
    obtain ⟨_ | p, opened, roots⟩ := b
    · cases h
      exact .serial
    · cases h

variable {b c : Builder} {t : Token} {ts : List Token}

theorem Accepts.isSome_body (h : Accepts b t c) : c.body.isSome = t.bodyAfter b.body.isSome := by
  cases h with
  | start | content | attr _ | prop _ _ _ | blank => rfl
  | finish _ | close _ | text _ | serial => exact congrArg Option.isSome (body_push _ _)

theorem isSome_body_of_foldlM (h : ts.foldlM token b = .ok c) :
    c.body.isSome = ts.foldl Token.bodyAfter b.body.isSome := by
  induction ts generalizing b with
  | nil =>
    cases h
    rfl
  | cons t ts ih =>
    rw [List.foldlM_cons] at h
    cases ht : b.token t with
    | error e =>
      rw [ht] at h
      cases h
    | ok d =>
      rw [ht] at h
      rw [ih h, List.foldl_cons, (accepts_of_token ht).isSome_body]

end Builder

namespace Builder

variable {b : Builder} {ts : List Token}

theorem toOption_token_of_opensBody {t : Token} (ht : t.opensBody = true) (b : Builder) :
    (b.token t).toOption = (token ⟨b.body, [], []⟩ t).toOption.map ({ b with body := ·.body }) := by
  obtain ⟨body, opened, roots⟩ := b
  cases t with
  | tag t =>
    obtain ⟨name, kind, _ | _ | _, _ | _, offset⟩ := t <;> try cases ht
    cases body <;> rfl
  | attr t =>
    cases body with
    | none => rfl
    | some p =>
      simp only [token, attr]
      cases t.attr <;> rfl
  | prop t =>
    cases body with
    | none => rfl
    | some p =>
      simp only [token, prop]
      split
      · rfl
      · split
        · rfl
        · cases t.attr <;> rfl
  | text value | serial reference => cases ht

theorem push_body (b : Builder) (n : Node) (body : Option PendingTag) :
    push { b with body } n = { push b n with body } := by
  obtain ⟨body', opened, roots⟩ := b
  cases opened <;> rfl

theorem toOption_token_of_closes {t : TagToken} (hc : t.closes = true) (b : Builder) :
    (b.token (.tag t)).toOption =
      (token { b with body := none } (.tag t)).toOption.map ({ · with body := b.body }) := by
  obtain ⟨body, opened, roots⟩ := b
  obtain ⟨name, kind, _ | _, _ | _ | _, offset⟩ := t <;> try cases hc
  cases opened with
  | nil => rfl
  | cons p opened =>
    cases hn : p.node with
    | error e => simp [token, tag, hn, Except.map, Except.toOption]
    | ok n =>
      simp only [token, tag, hn]
      exact congrArg some (push_body ⟨none, opened, roots⟩ n body)

/-- What opens a body or stands in one and a closing tag do not get in each other's way. -/
theorem run?_late {t : Token} {close : TagToken} (ht : t.opensBody = true)
    (hc : close.closes = true) (b : Builder) : b.run? [t, .tag close] = b.run? [.tag close, t] := by
  obtain ⟨x, hx⟩ : ∃ x, (token ⟨b.body, [], []⟩ t).toOption = x := ⟨_, rfl⟩
  obtain ⟨y, hy⟩ : ∃ y, (token { b with body := none } (.tag close)).toOption = y := ⟨_, rfl⟩
  have hopen : ∀ d : Builder, d.body = b.body →
      (d.token t).toOption = x.map ({ d with body := ·.body }) := by
    intro d hd
    rw [toOption_token_of_opensBody ht, hd, hx]
  have hclose : ∀ body, (token { b with body } (.tag close)).toOption = y.map ({ · with body }) := by
    intro body
    rw [toOption_token_of_closes hc, hy]
  calc b.run? [t, .tag close]
      = x.bind fun c => y.map fun d => { d with body := c.body } := by
        rw [run?_cons, hopen b rfl, Option.bind_map]
        exact congrArg x.bind (funext fun c => (run?_singleton _ _).trans (hclose c.body))
    _ = y.bind fun d => x.map fun c => { d with body := c.body } := by
        cases x <;> cases y <;> rfl
    _ = b.run? [.tag close, t] := by
        rw [run?_cons, hclose b.body, Option.bind_map]
        exact congrArg y.bind (funext fun d =>
          ((run?_singleton _ t).trans (hopen { d with body := b.body } rfl)).symm)

/-- The builder does not tell apart what says the same. -/
theorem run?_of_restates {late : Bool} {before ts' : List Token} (h : Restates late before ts ts')
    (hb : bodyOpen before = b.body.isSome) : b.run? ts = b.run? ts' := by
  obtain ⟨body, opened, roots⟩ := b
  cases h with
  | offset t offset => rfl
  | ending t h name kind =>
    obtain ⟨_, _, _ | _ | _, _ | _ | _, _⟩ := t <;> try cases h
    · cases opened <;> rfl
    · cases body <;> rfl
    · cases body <;> rfl
  | childless name kind offset => cases body <;> rfl
  | text ht =>
    rw [ht] at hb
    cases body with
    | none => rfl
    | some p => cases hb
  | value name value value' => rfl
  | swap a q =>
    cases body with
    | none => rfl
    | some p =>
      simp only [run?_cons, token, attr, prop]
      by_cases hk : p.kind = .custom <;> by_cases he : q.kind = .empty <;> cases a.attr <;>
        cases q.attr <;> simp [hk, he, Except.map, Except.toOption]
  | late hl ht hc => exact run?_late ht hc _

end Builder

theorem parse_of_restated {late : Bool} {ts ts' : List Token} (h : Restated late ts ts') (t : Template) :
    parse ts = .ok t ↔ parse ts' = .ok t := by
  have hrun : Builder.empty.run? ts = Builder.empty.run? ts' := by
    induction h with
    | rel ts ts' h =>
      cases h with
      | @mk before ts ts' h after =>
        simp only [Builder.run?_append]
        cases hb : Builder.empty.run? before with
        | none => rfl
        | some b =>
          have ho := Builder.isSome_body_of_foldlM (Builder.run?_eq_some_iff.mp hb)
          simp only [Option.bind_some, Builder.run?_of_restates h ho.symm]
    | refl ts => rfl
    | symm ts ts' _ ih => exact ih.symm
    | trans _ _ _ _ _ ih ih' => exact ih.trans ih'
  rw [parse_eq_ok_iff, parse_eq_ok_iff, hrun]

theorem closesOutside_append (inside : Bool) (ts more : List Token) :
    closesOutside inside (ts ++ more) =
      (closesOutside inside ts && closesOutside (ts.foldl Token.bodyAfter inside) more) := by
  induction ts generalizing inside with
  | nil => rfl
  | cons t ts ih => rw [List.cons_append, closesOutside, closesOutside, ih, Bool.and_assoc]; rfl

structure Tidy (ts : List Token) : Prop where
  closes : closesOutside false ts = true
  bodyOpen : bodyOpen ts = false

theorem Tidy.append {ts more : List Token} (h : Tidy ts) (h' : Tidy more) : Tidy (ts ++ more) where
  closes := by
    have ho := h.bodyOpen
    rw [ReactiveView.bodyOpen] at ho
    rw [closesOutside_append, h.closes, ho, h'.closes]
    rfl
  bodyOpen := by
    have ho := h.bodyOpen
    have ho' := h'.bodyOpen
    rw [ReactiveView.bodyOpen] at ho ho' ⊢
    rw [List.foldl_append, ho, ho']

theorem tidy_startTokens_append (kind : TagKind) (name : String) (attrs props : List Attr)
    {ts : List Token} (hc : closesOutside true ts = true)
    (ho : ts.foldl Token.bodyAfter true = false) :
    Tidy (startTokens kind name attrs props ++ ts) := by
  have hbody : ∀ body : List Token,
      (∀ t ∈ body, t.closes = false ∧ ∀ inside, t.bodyAfter inside = inside) →
      closesOutside true (body ++ ts) = true ∧ (body ++ ts).foldl Token.bodyAfter true = false := by
    intro body hb
    induction body with
    | nil => exact ⟨hc, ho⟩
    | cons t body ih =>
      obtain ⟨⟨hc, ho⟩, hrest⟩ := List.forall_mem_cons.mp hb
      rw [List.cons_append, closesOutside, List.foldl_cons, hc, ho]
      exact ih hrest
  obtain ⟨hc', ho'⟩ := hbody (attrs.map Attr.token ++ props.map Attr.propToken) fun t ht => by
    obtain ht | ht := List.mem_append.mp ht <;> obtain ⟨a, -, rfl⟩ := List.mem_map.mp ht <;>
      exact ⟨rfl, fun _ => rfl⟩
  exact ⟨hc', ho'⟩

theorem tidy_tagTokens (kind : TagKind) (name : String) (attrs props : List Attr)
    {content : List Token} (h : Tidy content) : Tidy (tagTokens kind name attrs props content) := by
  unfold tagTokens
  split
  · exact tidy_startTokens_append kind name attrs props rfl rfl
  · have htidy : Tidy (content ++ [.tag ⟨name, kind, none, some .finish, 0⟩]) := h.append ⟨rfl, rfl⟩
    exact tidy_startTokens_append kind name attrs props htidy.closes htidy.bodyOpen

namespace Node

mutual

theorem tidy_tokens : ∀ n : Node, Tidy n.tokens
  | element _ _ children | custom _ _ _ children | command _ _ children =>
    tidy_tagTokens _ _ _ _ (tidy_tokensAll children)
  | literal _ | serial _ => ⟨rfl, rfl⟩

theorem tidy_tokensAll : ∀ nodes : List Node, Tidy (tokensAll nodes)
  | [] => ⟨rfl, rfl⟩
  | node :: rest => (tidy_tokens node).append (tidy_tokensAll rest)

end

end Node

theorem Restates.closesOutside_eq {before ts ts' : List Token} (h : Restates false before ts ts')
    (inside : Bool) : closesOutside inside ts = closesOutside inside ts' ∧
      ts.foldl Token.bodyAfter inside = ts'.foldl Token.bodyAfter inside := by
  cases h with
  | offset t offset =>
    obtain ⟨_, _, _ | _ | _, _, _⟩ := t <;> exact ⟨rfl, rfl⟩
  | ending t h name kind =>
    obtain ⟨_, _, _ | _ | _, _, _⟩ := t <;> exact ⟨rfl, rfl⟩
  | childless name kind offset => cases inside <;> exact ⟨rfl, rfl⟩
  | text ht => cases inside <;> exact ⟨rfl, rfl⟩
  | value name value value' => exact ⟨rfl, rfl⟩
  | swap a p => exact ⟨rfl, rfl⟩
  | late hl _ _ => cases hl

theorem Restated.closesOutside_eq {ts ts' : List Token} (h : Restated false ts ts') :
    closesOutside false ts = closesOutside false ts' := by
  induction h with
  | rel ts ts' h =>
    cases h with
    | @mk before ts ts' h after =>
      obtain ⟨hc, ho⟩ := h.closesOutside_eq (before.foldl Token.bodyAfter false)
      simp only [closesOutside_append, List.foldl_append, hc, ho]
  | refl ts => rfl
  | symm ts ts' _ ih => exact ih.symm
  | trans _ _ _ _ _ ih ih' => exact ih.trans ih'

end ReactiveView
