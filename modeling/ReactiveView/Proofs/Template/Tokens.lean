import ReactiveView.Proofs.Template.Complete
import ReactiveView.Proofs.Template.Lockstep

namespace ReactiveView

open Node

def Attr.propToken (a : Attr) : Token := .prop (.ofValue a.name a.value)

def startTokens (kind : TagKind) (name : String) (attrs props : List Attr) : List Token :=
  .tag ⟨name, kind, some .start, none, 0⟩ :: (attrs.map Attr.token ++ props.map Attr.propToken)

def tagTokens (kind : TagKind) (name : String) (attrs props : List Attr) (content : List Token) :
    List Token :=
  startTokens kind name attrs props ++
    if content.isEmpty then [.tag ⟨name, kind, some .finish, none, 0⟩]
    else .tag ⟨name, kind, some .finish, some .start, 0⟩ ::
      (content ++ [.tag ⟨name, kind, none, some .finish, 0⟩])

namespace Node

mutual

def tokens : Node → List Token
  | element tag attrs children => tagTokens .regular tag attrs [] (tokensAll children)
  | custom name attrs props children => tagTokens .custom name attrs props (tokensAll children)
  | literal text => [.text text]
  | serial reference => [.serial reference]
  | command c binding children =>
    tagTokens .command c.name [⟨"each", .serial binding⟩] [] (tokensAll children)

def tokensAll : List Node → List Token
  | [] => []
  | node :: rest => node.tokens ++ tokensAll rest

end

mutual

/-- Literal texts are not empty, and props have values. -/
def Expressible : Node → Prop
  | element _ _ children => ExpressibleAll children
  | custom _ _ props children => (∀ p ∈ props, p.value ≠ .empty) ∧ ExpressibleAll children
  | literal text => text ≠ ""
  | serial _ => True
  | command _ _ children => ExpressibleAll children

def ExpressibleAll : List Node → Prop
  | [] => True
  | node :: rest => node.Expressible ∧ ExpressibleAll rest

end

theorem tokensAll_append (nodes more : List Node) :
    tokensAll (nodes ++ more) = tokensAll nodes ++ tokensAll more := by
  induction nodes with
  | nil => rfl
  | cons n nodes ih => rw [List.cons_append, tokensAll, tokensAll, ih, List.append_assoc]

theorem expressibleAll_append {nodes more : List Node} :
    ExpressibleAll (nodes ++ more) ↔ ExpressibleAll nodes ∧ ExpressibleAll more := by
  induction nodes with
  | nil => exact (and_iff_right trivial).symm
  | cons n nodes ih => rw [List.cons_append, ExpressibleAll, ExpressibleAll, ih, and_assoc]

variable {n : Node} {kind : TagKind} {name : String} {attrs props : List Attr}
  {children : List Node}

theorem IsTag.tokens_eq (h : IsTag n kind name attrs props children) :
    n.tokens = tagTokens kind name attrs props (tokensAll children) := by
  cases h <;> rfl

theorem IsTag.expressible_iff (h : IsTag n kind name attrs props children) :
    n.Expressible ↔ (∀ p ∈ props, p.value ≠ .empty) ∧ ExpressibleAll children := by
  cases h with
  | custom => exact Iff.rfl
  | element | map => exact (and_iff_right (by simp)).symm

end Node

def Template.tokens (t : Template) : List Token := t.root.tokens

namespace Builder

variable {b c : Builder} {t : Token} {ts : List Token} {n : Node}

def run? (b : Builder) (ts : List Token) : Option Builder := (ts.foldlM token b).toOption

theorem run?_eq_some_iff : b.run? ts = some c ↔ ts.foldlM token b = .ok c := by
  unfold run?
  cases ts.foldlM token b with
  | error e => exact iff_of_false (fun h => by cases h) fun h => by cases h
  | ok d => exact ⟨fun h => by cases h; rfl, fun h => by cases h; rfl⟩

theorem run?_append (b : Builder) (ts more : List Token) :
    b.run? (ts ++ more) = (b.run? ts).bind (·.run? more) := by
  rw [run?, run?, List.foldlM_append]
  cases ts.foldlM token b <;> rfl

theorem run?_cons (b : Builder) (t : Token) (ts : List Token) :
    b.run? (t :: ts) = (b.token t).toOption.bind (·.run? ts) := by
  rw [run?, List.foldlM_cons]
  cases b.token t <;> rfl

theorem run?_cons_ok (h : b.token t = .ok c) (ts : List Token) : b.run? (t :: ts) = c.run? ts := by
  rw [run?_cons, h]
  rfl

theorem run?_singleton (b : Builder) (t : Token) : b.run? [t] = (b.token t).toOption := by
  rw [run?_cons]
  cases b.token t <;> rfl

variable {opened : List PendingTag} {roots : List Node} {p : PendingTag}

theorem run?_attrs (attrs : List Attr) (p : PendingTag) :
    run? ⟨some p, opened, roots⟩ (attrs.map Attr.token) =
      some ⟨some { p with attrs := p.attrs ++ attrs }, opened, roots⟩ := by
  induction attrs generalizing p with
  | nil => simp [run?, Except.toOption, pure, Except.pure]
  | cons a attrs ih =>
    rw [List.map_cons, Attr.token, run?_cons_ok (token_attr rfl)]
    simpa using ih { p with attrs := p.attrs ++ [a] }

theorem run?_props {props : List Attr} (hk : props ≠ [] → p.kind = .custom)
    (hp : ∀ a ∈ props, a.value ≠ .empty) :
    run? ⟨some p, opened, roots⟩ (props.map Attr.propToken) =
      some ⟨some { p with props := p.props ++ props }, opened, roots⟩ := by
  induction props generalizing p with
  | nil => simp [run?, Except.toOption, pure, Except.pure]
  | cons a props ih =>
    obtain ⟨ha, hprops⟩ := List.forall_mem_cons.mp hp
    have hkind := hk (List.cons_ne_nil a props)
    rw [List.map_cons, Attr.propToken, run?_cons_ok (token_prop rfl hkind ha)]
    simpa using ih (p := { p with props := p.props ++ [a] }) (fun _ => hkind) hprops

variable {kind : TagKind} {name : String} {attrs props : List Attr} {children : List Node}

theorem run?_startTokens (ht : IsTag n kind name attrs props children)
    (hp : ∀ a ∈ props, a.value ≠ .empty) :
    run? ⟨none, opened, roots⟩ (startTokens kind name attrs props) =
      some ⟨some ⟨name, kind, attrs, props, []⟩, opened, roots⟩ := by
  have hkind : props ≠ [] → kind = .custom := by
    cases ht with
    | element | map => exact fun h => absurd rfl h
    | custom => exact fun _ => rfl
  have hstart : token ⟨none, opened, roots⟩ (.tag ⟨name, kind, some .start, none, 0⟩) =
      .ok ⟨some ⟨name, kind, [], [], []⟩, opened, roots⟩ := rfl
  rw [startTokens, run?_cons_ok hstart, run?_append, run?_attrs, Option.bind_some,
    run?_props hkind hp]
  rfl

theorem run?_tagTokens (ht : IsTag n kind name attrs props children)
    (hp : ∀ a ∈ props, a.value ≠ .empty)
    (hc : ∀ b : Builder, b.body = none → b.run? (tokensAll children) = some (children.foldl push b))
    (hb : b.body = none) :
    b.run? (tagTokens kind name attrs props (tokensAll children)) = some (b.push n) := by
  obtain ⟨body, opened, roots⟩ := b
  cases hb
  have hcontent : ∀ b : Builder, b.run? (if (tokensAll children).isEmpty then
      [.tag ⟨name, kind, some .finish, none, 0⟩] else .tag ⟨name, kind, some .finish, some .start, 0⟩ ::
        (tokensAll children ++ [.tag ⟨name, kind, none, some .finish, 0⟩])) =
      b.run? (.tag ⟨name, kind, some .finish, some .start, 0⟩ ::
        (tokensAll children ++ [.tag ⟨name, kind, none, some .finish, 0⟩])) := by
    intro b
    cases tokensAll children with
    | nil => obtain ⟨_ | _, _, _⟩ := b <;> rfl
    | cons => rfl
  have hstart : token ⟨some ⟨name, kind, attrs, props, []⟩, opened, roots⟩
      (.tag ⟨name, kind, some .finish, some .start, 0⟩) =
      .ok ⟨none, ⟨name, kind, attrs, props, []⟩ :: opened, roots⟩ := rfl
  have hclose : token ⟨none, ⟨name, kind, attrs, props, children⟩ :: opened, roots⟩
      (.tag ⟨name, kind, none, some .finish, 0⟩) = .ok (push ⟨none, opened, roots⟩ n) := by
    simp only [token, tag, ht.node]
    rfl
  rw [tagTokens, run?_append, run?_startTokens ht hp, Option.bind_some, hcontent, run?_cons_ok hstart,
    run?_append, hc _ rfl, foldl_push_opened, Option.bind_some, List.nil_append, run?_cons_ok hclose]
  rfl

end Builder

namespace Node

mutual

theorem run?_tokens : ∀ {n : Node} {b : Builder}, n.Expressible → b.body = none →
    b.run? n.tokens = some (b.push n)
  | element _ _ _, _, h, hb =>
    Builder.run?_tagTokens .element (by simp) (fun _ => run?_tokensAll h) hb
  | custom _ _ _ _, _, h, hb =>
    Builder.run?_tagTokens .custom h.1 (fun _ => run?_tokensAll h.2) hb
  | command .map _ _, _, h, hb =>
    Builder.run?_tagTokens .map (by simp) (fun _ => run?_tokensAll h) hb
  | literal text, b, h, hb => by
    rw [tokens, Builder.run?_singleton, Builder.token_text hb h]
    rfl
  | serial reference, b, _, hb => by
    rw [tokens, Builder.run?_singleton, Builder.token_serial hb]
    rfl

theorem run?_tokensAll : ∀ {nodes : List Node} {b : Builder}, ExpressibleAll nodes → b.body = none →
    b.run? (tokensAll nodes) = some (nodes.foldl Builder.push b)
  | [], _, _, _ => rfl
  | node :: rest, b, h, hb => by
    rw [tokensAll, Builder.run?_append, run?_tokens h.1 hb, Option.bind_some]
    exact run?_tokensAll h.2 ((Builder.body_push b node).trans hb)

end

end Node

theorem parse_eq_ok_iff {ts : List Token} {t : Template} :
    parse ts = .ok t ↔ Builder.empty.run? ts = some ⟨none, [], [t.root]⟩ := by
  rw [Builder.run?_eq_some_iff, parse]
  cases ts.foldlM Builder.token Builder.empty with
  | error e => exact iff_of_false (fun h => by cases h) fun h => by cases h
  | ok b =>
    rw [Except.ok.injEq]
    exact Builder.template_eq_ok_iff

theorem parse_tokens {t : Template} (h : t.root.Expressible) : parse t.tokens = .ok t :=
  parse_eq_ok_iff.mpr (Node.run?_tokens h rfl)

end ReactiveView
