import ReactiveView.Proofs.Template.Sound

namespace ReactiveView

namespace Token

def inBody : Token → Bool
  | .attr _ | .prop _ => true
  | _ => false

/-- A tag is begun, or a text or a reference stands by itself. -/
def beginsNode : Token → Bool
  | .tag t => t.body = some .start
  | .text _ | .serial _ => true
  | _ => false

def depthAfter (depth : Nat) : Token → Nat
  | .tag ⟨_, _, _, some .start, _⟩ => depth + 1
  | .tag ⟨_, _, _, some .finish, _⟩ => depth - 1
  | _ => depth

end Token

def rootTokens : Nat → List Token → List Token
  | _, [] => []
  | depth, token :: rest =>
    (if token.beginsNode && depth == 0 then [token] else []) ++
      rootTokens (token.depthAfter depth) rest

structure WrittenCommand where
  name : String
  body : List Token

def commandsOf : List Token → List WrittenCommand
  | [] => []
  | .tag ⟨name, kind, some .start, _, _⟩ :: rest =>
    (if kind = .command then [⟨name, rest.takeWhile Token.inBody⟩] else []) ++ commandsOf rest
  | _ :: rest => commandsOf rest

namespace WrittenCommand

def IsMap (k : WrittenCommand) : Prop :=
  k.name = Command.map.name ∧ ∃ reference, k.body = [.attr ⟨"each", .serial, some reference⟩]

def Refused (k : WrittenCommand) (e : SyntaxError) : Prop :=
  ¬k.IsMap ∧ e = if k.name = Command.map.name then .commandAttributes .map else .unknownCommand k.name

end WrittenCommand

def Attr.token (a : Attr) : Token := .attr (.ofValue a.name a.value)

theorem Attr.eq_of_token_eq {a : Attr} {name reference : String}
    (h : a.token = .attr ⟨name, .serial, some reference⟩) : a = ⟨name, .serial reference⟩ := by
  obtain ⟨n, value⟩ := a
  cases value with
  | empty => cases h
  | literal text => cases h
  | serial reference' =>
    cases h
    rfl

namespace PendingTag

variable {p : PendingTag}

/-- The command that an open tag comes to with the rest of its body. -/
def command? (p : PendingTag) (rest : List Token) : Option WrittenCommand :=
  if p.kind = .command then some ⟨p.name, p.attrs.map Attr.token ++ rest⟩ else none

theorem isMap_iff {name : String} {attrs : List Attr} :
    (WrittenCommand.mk name (attrs.map Attr.token)).IsMap ↔
      Command.ofName? name = some .map ∧ ∃ binding, binding? attrs = some binding := by
  rw [WrittenCommand.IsMap, Command.ofName?_eq_some_iff]
  refine and_congr_right fun _ => exists_congr fun reference => ?_
  rw [binding?_eq_some_iff, List.map_eq_singleton_iff]
  constructor
  · rintro ⟨a, rfl, ha⟩
    rw [Attr.eq_of_token_eq ha]
  · rintro rfl
    exact ⟨_, rfl, rfl⟩

theorem node_cases (p : PendingTag) :
    (∃ n, p.node = .ok n ∧ ∀ k ∈ p.command? [], k.IsMap) ∨
      ∃ e, p.node = .error e ∧ ∃ k ∈ p.command? [], k.Refused e := by
  obtain ⟨name, kind, attrs, props, children⟩ := p
  cases kind with
  | regular => exact .inl ⟨_, rfl, fun k hk => by cases hk⟩
  | custom => exact .inl ⟨_, rfl, fun k hk => by cases hk⟩
  | command =>
    have hk : ⟨name, attrs.map Attr.token⟩ ∈
        (PendingTag.mk name .command attrs props children).command? [] := by simp [command?]
    cases hname : Command.ofName? name with
    | none =>
      refine .inr ⟨.unknownCommand name, by simp only [node, hname], _, hk, ?_, ?_⟩
      · rw [isMap_iff, hname]
        exact fun h => by cases h.1
      · refine (if_neg ?_).symm
        rintro rfl
        cases hname
    | some command =>
      cases command
      cases hb : binding? attrs with
      | none =>
        refine .inr ⟨.commandAttributes .map, by simp only [node, hname, hb], _, hk, ?_, ?_⟩
        · rw [isMap_iff, hb]
          exact fun h => by cases h.2.choose_spec
        · exact (if_pos (Command.ofName?_eq_some_iff.mp hname)).symm
      | some binding =>
        refine .inl ⟨.command .map binding children, by simp only [node, hname, hb], ?_⟩
        rintro k hk'
        obtain rfl := Option.mem_unique hk hk'
        exact isMap_iff.mpr ⟨hname, binding, hb⟩

theorem command?_eq_none (hk : p.kind = .custom) (rest : List Token) : p.command? rest = none := by
  rw [command?, hk]
  rfl

def commands (opened : List PendingTag) : List WrittenCommand :=
  opened.reverse.filterMap (·.command? [])

theorem commands_cons (p : PendingTag) (opened : List PendingTag) :
    commands (p :: opened) = commands opened ++ (p.command? []).toList := by
  rw [commands, commands, List.reverse_cons, List.filterMap_append, List.filterMap_cons]
  cases p.command? [] <;> rfl

end PendingTag

namespace Builder

/-- The commands that are open, the one whose body is open with what follows in it, and those that
follow. -/
def commands (b : Builder) (rest : List Token) : List WrittenCommand :=
  PendingTag.commands b.opened ++
    ((b.body.bind (·.command? (rest.takeWhile Token.inBody))).toList ++ commandsOf rest)

def rootCount : Builder → Nat
  | ⟨none, [], roots⟩ => roots.length
  | ⟨_, _, roots⟩ => roots.length + 1

/-- A builder takes tokens and becomes another one. The commands that are behind it then are well
written, and no node has been missed. -/
structure Takes (b : Builder) (tokens : List Token) (c : Builder) : Prop where
  builds : tokens.foldlM Builder.token b = .ok c
  ahead : ∀ rest, c.commands rest ⊆ b.commands (tokens ++ rest)
  behind : ∀ rest, ∀ k ∈ b.commands (tokens ++ rest), k ∈ c.commands rest ∨ k.IsMap
  roots : ∀ rest, b.rootCount + (rootTokens b.opened.length (tokens ++ rest)).length =
    c.rootCount + (rootTokens c.opened.length rest).length

/-- A builder fails at tokens, and a command is to blame. -/
def Refuses (b : Builder) (tokens : List Token) : Prop :=
  ∃ e, tokens.foldlM Builder.token b = .error e ∧
    ∀ rest, ∃ k ∈ b.commands (tokens ++ rest), k.Refused e

variable {b c : Builder} {p : PendingTag} {n : Node} {token : Token} {rest : List Token}

theorem commands_push (b : Builder) (n : Node) (rest : List Token) :
    (b.push n).commands rest = b.commands rest := by
  obtain ⟨body, opened, roots⟩ := b
  cases opened with
  | nil => rfl
  | cons p opened =>
    simp only [commands, push, PendingTag.commands_cons]
    rfl

theorem rootCount_push (hb : b.body = none) (n : Node) : (b.push n).rootCount = b.roots.length + 1 := by
  obtain ⟨body, opened, roots⟩ := b
  cases hb
  cases opened with
  | nil => exact List.length_append
  | cons p opened => rfl

theorem open_push (hb : b.body = none) (n : Node) :
    none = (b.push n).body.map PendingTag.openTag ∧
      b.opened.map PendingTag.openTag = (b.push n).opened.map PendingTag.openTag := by
  rw [body_push, openTag_push, hb]
  exact ⟨rfl, rfl⟩

theorem length_opened_push (b : Builder) (n : Node) :
    (b.push n).opened.length = b.opened.length := by
  obtain ⟨body, opened, roots⟩ := b
  cases opened <;> rfl

theorem Takes.refl (b : Builder) : b.Takes [] b where
  builds := rfl
  ahead _ := List.Subset.refl _
  behind _ _ hk := .inl hk
  roots _ := rfl

theorem Takes.trans {tokens more : List Token} {d : Builder} (h : b.Takes tokens c)
    (h' : c.Takes more d) : b.Takes (tokens ++ more) d where
  builds := by
    rw [List.foldlM_append, h.builds]
    exact h'.builds
  ahead rest := by
    rw [List.append_assoc]
    exact List.Subset.trans (h'.ahead rest) (h.ahead (more ++ rest))
  behind rest k hk := by
    rw [List.append_assoc] at hk
    obtain hk | hk := h.behind (more ++ rest) k hk
    · exact h'.behind rest k hk
    · exact .inr hk
  roots rest := by rw [List.append_assoc, h.roots, h'.roots]

theorem Takes.refuses {tokens more : List Token} (h : b.Takes tokens c) (hr : c.Refuses more) :
    b.Refuses (tokens ++ more) := by
  obtain ⟨e, he, hblame⟩ := hr
  refine ⟨e, by rw [List.foldlM_append, h.builds]; exact he, fun rest => ?_⟩
  obtain ⟨k, hk, hrefused⟩ := hblame rest
  rw [List.append_assoc]
  exact ⟨k, h.ahead (more ++ rest) hk, hrefused⟩

theorem Refuses.append {tokens : List Token} (h : b.Refuses tokens) (more : List Token) :
    b.Refuses (tokens ++ more) := by
  obtain ⟨e, he, hblame⟩ := h
  refine ⟨e, by rw [List.foldlM_append, he]; rfl, fun rest => ?_⟩
  rw [List.append_assoc]
  exact hblame (more ++ rest)

theorem Takes.of_eq (ht : b.token token = .ok c)
    (hc : ∀ rest, b.commands (token :: rest) = c.commands rest)
    (hr : ∀ rest, b.rootCount + (rootTokens b.opened.length (token :: rest)).length =
      c.rootCount + (rootTokens c.opened.length rest).length) : b.Takes [token] c where
  builds := by
    rw [List.foldlM_cons, ht]
    rfl
  ahead rest := by
    rw [List.singleton_append, hc]
    exact List.Subset.refl _
  behind rest k hk := by
    rw [List.singleton_append, hc] at hk
    exact .inl hk
  roots := hr

theorem takes_or_refuses_of_node (ht : b.token token = p.node.map c.push) (hbody : c.body = none)
    (hc : ∀ rest, b.commands (token :: rest) = PendingTag.commands c.opened ++
      ((p.command? []).toList ++ commandsOf rest))
    (hcount : b.rootCount = c.roots.length + 1)
    (hdepth : ∀ rest, rootTokens b.opened.length (token :: rest) = rootTokens c.opened.length rest) :
    (∃ n, b.Takes [token] (c.push n)) ∨ b.Refuses [token] := by
  have hcommands : ∀ rest, c.commands rest =
      PendingTag.commands c.opened ++ commandsOf rest := by
    intro rest
    rw [commands, hbody]
    rfl
  obtain ⟨n, hn, hmap⟩ | ⟨e, he, k, hk, hrefused⟩ := p.node_cases
  · refine .inl ⟨n, ?_, ?_, ?_, ?_⟩
    · rw [List.foldlM_cons, ht, hn]
      rfl
    · intro rest k hk
      rw [commands_push, hcommands, List.mem_append] at hk
      rw [List.singleton_append, hc, List.mem_append, List.mem_append]
      exact hk.imp_right .inr
    · intro rest k hk
      rw [List.singleton_append, hc, List.mem_append, List.mem_append, Option.mem_toList] at hk
      rw [commands_push, hcommands, List.mem_append]
      obtain hk | hk | hk := hk
      · exact .inl (.inl hk)
      · exact .inr (hmap k hk)
      · exact .inl (.inr hk)
    · intro rest
      rw [List.singleton_append, hdepth, rootCount_push hbody, length_opened_push, hcount]
  · refine .inr ⟨e, ?_, fun rest => ⟨k, ?_, hrefused⟩⟩
    · rw [List.foldlM_cons, ht, he]
      rfl
    · rw [List.singleton_append, hc, List.mem_append, List.mem_append, Option.mem_toList]
      exact .inr (.inl hk)

theorem Takes.of_push (ht : b.token token = .ok (b.push n)) (hb : b.body = none)
    (hc : ∀ rest, commandsOf (token :: rest) = commandsOf rest) (hn : token.beginsNode = true)
    (hd : ∀ depth, token.depthAfter depth = depth) : b.Takes [token] (b.push n) := by
  refine .of_eq ht ?_ ?_
  · intro rest
    rw [commands_push, commands, commands, hb, hc]
    rfl
  · intro rest
    rw [rootCount_push hb, length_opened_push, rootTokens, hd, hn]
    obtain ⟨body, opened, roots⟩ := b
    cases hb
    cases opened with
    | nil => exact (Nat.succ_add_eq_add_succ ..).symm
    | cons p opened => rfl

variable {opened : List PendingTag} {roots : List Node} {name : String} {value : AttrValue}

theorem takes_or_refuses_closeBody (p : PendingTag) (opened : List PendingTag) (roots : List Node)
    (offset : Nat) :
    (∃ n, Takes ⟨some p, opened, roots⟩ [.tag ⟨p.name, p.kind, some .finish, none, offset⟩]
      (push ⟨none, opened, roots⟩ n)) ∨
    Refuses ⟨some p, opened, roots⟩ [.tag ⟨p.name, p.kind, some .finish, none, offset⟩] :=
  takes_or_refuses_of_node rfl rfl (fun _ => rfl) rfl fun _ => rfl

theorem takes_or_refuses_closeTag (p : PendingTag) (opened : List PendingTag) (roots : List Node)
    (kind : TagKind) (name : String) (offset : Nat) :
    (∃ n, Takes ⟨none, p :: opened, roots⟩ [.tag ⟨name, kind, none, some .finish, offset⟩]
      (push ⟨none, opened, roots⟩ n)) ∨
    Refuses ⟨none, p :: opened, roots⟩ [.tag ⟨name, kind, none, some .finish, offset⟩] := by
  refine takes_or_refuses_of_node (p := p) rfl rfl ?_ rfl fun rest => rfl
  intro rest
  rw [commands, PendingTag.commands_cons, List.append_assoc]
  rfl

theorem Takes.openChildren (p : PendingTag) (opened : List PendingTag) (roots : List Node)
    (offset : Nat) :
    Takes ⟨some p, opened, roots⟩ [.tag ⟨p.name, p.kind, some .finish, some .start, offset⟩]
      ⟨none, p :: opened, roots⟩ := by
  refine .of_eq rfl ?_ fun rest => rfl
  intro rest
  rw [commands, commands, PendingTag.commands_cons, List.append_assoc]
  rfl

theorem Takes.prop (hk : p.kind = .custom) (hne : value ≠ .empty) :
    Takes ⟨some p, opened, roots⟩ [.prop (.ofValue name value)]
      ⟨some { p with props := p.props ++ [⟨name, value⟩] }, opened, roots⟩ := by
  refine .of_eq (token_prop rfl hk hne) ?_ fun rest => rfl
  intro rest
  -- Only components have props, so this tag is no command.
  simp only [commands, Option.bind_some]
  rw [PendingTag.command?_eq_none hk, PendingTag.command?_eq_none]
  · rfl
  · exact hk

theorem Takes.attr : Takes ⟨some p, opened, roots⟩ [.attr (.ofValue name value)]
    ⟨some { p with attrs := p.attrs ++ [⟨name, value⟩] }, opened, roots⟩ := by
  refine .of_eq (token_attr rfl) ?_ fun rest => rfl
  intro rest
  have htake : (Token.attr (.ofValue name value) :: rest).takeWhile Token.inBody =
      .attr (.ofValue name value) :: rest.takeWhile Token.inBody := rfl
  simp only [commands, Option.bind_some, PendingTag.command?, htake, List.map_append,
    List.append_assoc]
  rfl

theorem Takes.openTag (kind : TagKind) (offset : Nat) :
    Takes ⟨none, opened, roots⟩ [.tag ⟨name, kind, some .start, none, offset⟩]
      ⟨some ⟨name, kind, [], [], []⟩, opened, roots⟩ := by
  refine .of_eq rfl ?_ ?_
  · intro rest
    cases kind <;> rfl
  · -- A tag in no other one is counted here already, while it is open.
    intro rest
    cases opened with
    | nil => exact (Nat.succ_add_eq_add_succ ..).symm
    | cons p opened => rfl

theorem Takes.serial (hb : b.body = none) (reference : String) :
    b.Takes [.serial reference] (b.push (.serial reference)) :=
  .of_push (token_serial hb) hb (fun _ => rfl) rfl fun _ => rfl

theorem Takes.text (hb : b.body = none) {text : String} (ht : text ≠ "") :
    b.Takes [.text text] (b.push (.literal text)) :=
  .of_push (token_text hb ht) hb (fun _ => rfl) rfl fun _ => rfl

end Builder

variable {s t : Scanner} {b c : Builder}

/-- Whatever the scanner reads, the builder takes, or it finds a command that is not well written. -/
theorem Agrees.takes_or_refuses {o : Option Token} {rest : List Char} {body : Option OpenTag}
    {children : List OpenTag} (h : Agrees s b) (hm : s.Moves o rest body children) :
    (∃ c, b.Takes o.toList c ∧ body = c.body.map PendingTag.openTag ∧
      children = c.opened.map PendingTag.openTag) ∨ b.Refuses o.toList := by
  have hc := h.children
  obtain ⟨current, opened, roots⟩ := b
  cases hm with
  | closeBody hs hu hr =>
    obtain ⟨p, rfl, rfl⟩ := h.exists_body hs
    refine (Builder.takes_or_refuses_closeBody p opened roots _).imp_left ?_
    rintro ⟨n, hn⟩
    exact ⟨_, hn, hc ▸ Builder.open_push rfl n⟩
  | openChildren hs hr =>
    obtain ⟨p, rfl, rfl⟩ := h.exists_body hs
    exact .inl ⟨_, .openChildren p opened roots _, rfl, by rw [hc]; rfl⟩
  | prop hs hk hn hne hv hr =>
    obtain ⟨p, rfl, rfl⟩ := h.exists_body hs
    exact .inl ⟨_, .prop hk hne, rfl, hc⟩
  | attr hs hn hv hr he =>
    obtain ⟨p, rfl, rfl⟩ := h.exists_body hs
    exact .inl ⟨_, .attr, rfl, hc⟩
  | closeTag hs hcons hw hr =>
    obtain rfl := h.body_eq_none hs
    cases opened with
    | nil =>
      rw [hcons] at hc
      cases hc
    | cons p opened =>
      rw [hcons, List.map_cons, List.cons.injEq] at hc
      refine (Builder.takes_or_refuses_closeTag p opened roots _ _ _).imp_left ?_
      rintro ⟨n, hn⟩
      exact ⟨_, hn, hc.2 ▸ Builder.open_push rfl n⟩
  | openTag hs hu hn hr ha =>
    obtain rfl := h.body_eq_none hs
    exact .inl ⟨_, .openTag _ _, rfl, hc⟩
  | serial hs hn hr =>
    obtain rfl := h.body_eq_none hs
    exact .inl ⟨_, .serial rfl _, hc ▸ Builder.open_push rfl _⟩
  | @text w more hs hne hw hm hr =>
    obtain rfl := h.body_eq_none hs
    by_cases htrim : trim w = []
    · rw [if_pos htrim]
      exact .inl ⟨_, .refl _, rfl, hc⟩
    · rw [if_neg htrim]
      exact .inl ⟨_, .text rfl (ofList_trim_ne_empty htrim), hc ▸ Builder.open_push rfl _⟩

theorem Agrees.takes_or_refuses_tokens {ts : List Token} (h : Agrees s b) (hts : s.tokens = .ok ts) :
    (∃ c, b.Takes ts c ∧ c.body = none ∧ c.opened = []) ∨ b.Refuses ts := by
  induction s using Scanner.tokens.induct generalizing b ts with
  | case1 s hr =>
    rw [Scanner.tokens_of_end hr, Scanner.stop_iff] at hts
    obtain ⟨hb, hc, rfl⟩ := hts
    refine .inl ⟨b, .refl b, h.body_eq_none hb, ?_⟩
    exact List.map_eq_nil_iff.mp (h.children.symm.trans hc)
  | case2 s ch r hr fault hs =>
    rw [Scanner.tokens_of_fault hr hs] at hts
    cases hts
  | case3 s ch r hr o t hs ih =>
    rw [Scanner.tokens_of_step hr hs] at hts
    obtain ⟨more, hmore, rfl⟩ := Cursor.map_eq_ok hts
    obtain ⟨c, hc, hbody, hchildren⟩ | hrefuses := h.takes_or_refuses (Scanner.moves_of_step hr hs)
    · obtain ⟨d, hd, hclosed⟩ | hrefuses := ih ⟨hbody, hchildren⟩ hmore
      · exact .inl ⟨d, hc.trans hd, hclosed⟩
      · exact .inr (hc.refuses hrefuses)
    · exact .inr (hrefuses.append more)

theorem parse_cases {source : String} {tokens : List Token} (h : tokenize source = .ok tokens) :
    ((∀ k ∈ commandsOf tokens, k.IsMap) ∧ ∃ roots : List Node,
      roots.length = (rootTokens 0 tokens).length ∧
        parse tokens = Builder.template ⟨none, [], roots⟩) ∨
    ∃ e, parse tokens = .error e ∧ ∃ k ∈ commandsOf tokens, k.Refused e := by
  obtain ⟨⟨body, opened, roots⟩, hc, rfl, rfl⟩ | ⟨e, he, hblame⟩ :=
    Agrees.takes_or_refuses_tokens (b := Builder.empty) ⟨rfl, rfl⟩ (tokenize_eq_ok_iff.mp h)
  · refine .inl ⟨fun k hk => ?_, roots, ?_, by rw [parse, hc.builds]; rfl⟩
    · obtain hk | hmap := hc.behind [] k ((List.append_nil tokens).symm ▸ hk)
      · cases hk
      · exact hmap
    · have hroots := hc.roots []
      rw [List.append_nil] at hroots
      exact ((Nat.zero_add _).symm.trans hroots).symm
  · obtain ⟨k, hk, hrefused⟩ := hblame []
    rw [List.append_nil] at hk
    exact .inr ⟨e, by rw [parse, he]; rfl, k, hk, hrefused⟩

/-- The tokens of a source make a template exactly when one node has been written outside of all
tags and every command is written as one. No other rule of the builder is ever broken by them. -/
theorem parse_of_tokenize {source : String} {tokens : List Token}
    (h : tokenize source = .ok tokens) :
    ((∃ t, parse tokens = .ok t) ↔
      (rootTokens 0 tokens).length = 1 ∧ ∀ k ∈ commandsOf tokens, k.IsMap) ∧
    ∀ e, parse tokens = .error e →
      (∃ k ∈ commandsOf tokens, k.Refused e) ∨
      (e = .noRoot ∧ rootTokens 0 tokens = []) ∨
      (e = .severalRoots ∧ 2 ≤ (rootTokens 0 tokens).length) := by
  obtain ⟨hmap, roots, hroots, hparse⟩ | ⟨e, hparse, k, hk, hrefused⟩ := parse_cases h
  · rw [hparse, ← hroots]
    match roots, hroots with
    | [], hnone =>
      refine ⟨iff_of_false (fun ⟨t, ht⟩ => by cases ht) (fun h => by cases h.1), fun e he => ?_⟩
      cases he
      exact .inr (.inl ⟨rfl, List.length_eq_zero_iff.mp hnone.symm⟩)
    | [root], _ => exact ⟨iff_of_true ⟨_, rfl⟩ ⟨rfl, hmap⟩, fun e he => by cases he⟩
    | _ :: _ :: more, _ =>
      refine ⟨iff_of_false (fun ⟨t, ht⟩ => by cases ht) (fun h => by cases h.1), fun e he => ?_⟩
      cases he
      exact .inr (.inr ⟨rfl, Nat.le_add_left 2 more.length⟩)
  · rw [hparse]
    refine ⟨iff_of_false (fun ⟨t, ht⟩ => by cases ht) fun h => hrefused.1 (h.2 k hk), fun e' he => ?_⟩
    cases he
    exact .inl ⟨k, hk, hrefused⟩

def listSource : String := "<ul><$map each=\x7bxs\x7d>\x7bitem\x7d</$map></ul>"

def listTokens : List Token := [
  .tag ⟨"ul", .regular, some .start, none, 0⟩,
  .tag ⟨"ul", .regular, some .finish, some .start, 3⟩,
  .tag ⟨"map", .command, some .start, none, 4⟩,
  .attr ⟨"each", .serial, some "xs"⟩,
  .tag ⟨"map", .command, some .finish, some .start, 19⟩,
  .serial "item",
  .tag ⟨"map", .command, none, some .finish, 26⟩,
  .tag ⟨"ul", .regular, none, some .finish, 33⟩]

theorem parse_of_tokenize_list :
    tokenize listSource = .ok listTokens ∧ ∃ t, parse listTokens = .ok t := by
  have h : tokenize listSource = .ok listTokens := by
    have hsome : (tokenize listSource).toOption = some listTokens := by decide +kernel
    cases ht : tokenize listSource with
    | error e =>
      rw [ht] at hsome
      cases hsome
    | ok tokens =>
      rw [ht] at hsome
      exact congrArg _ (Option.some.inj hsome)
  refine ⟨h, (parse_of_tokenize h).1.mpr ⟨rfl, ?_⟩⟩
  intro k hk
  obtain rfl : k = ⟨"map", [.attr ⟨"each", .serial, some "xs"⟩]⟩ := List.mem_singleton.mp hk
  exact ⟨rfl, "xs", rfl⟩

end ReactiveView
