import ReactiveView.Proofs.Template.Compiling

namespace ReactiveView

open Node

theorem WrittenBody.props_eq_nil {kind : TagKind} {attrs props : List Attr} {named : Bool}
    {w : List Char} (h : WrittenBody kind attrs props named w) (hk : kind ≠ .custom) : props = [] := by
  induction h with
  | nil => rfl
  | space _ _ ih => exact ih
  | attr _ _ _ ih => exact ih
  | prop _ hc => exact absurd hc hk

theorem WrittenStart.props_eq_nil {kind : TagKind} {name : String} {attrs props : List Attr}
    {named : Bool} {w : List Char} (h : WrittenStart kind name attrs props named w)
    (hk : kind ≠ .custom) : props = [] := by
  cases h with
  | mk _ _ h => exact h.props_eq_nil hk

theorem WrittenStart.blank {kind : TagKind} {name : String} {attrs props : List Attr} {named : Bool}
    {w u : List Char} (h : WrittenStart kind name attrs props named w) (hu : Blank u) :
    WrittenStart kind name attrs props (named && u.isEmpty) (w ++ u) := by
  cases u with
  | nil => simpa using h
  | cons c u =>
    have hs : ∀ {named : Bool} {w : List Char} {c : Char}, WrittenStart kind name attrs props named w →
        isSpace c = true → WrittenStart kind name attrs props false (w ++ [c]) := by
      intro named w c h hc
      cases h with
      | mk hv hn h =>
        rw [List.append_assoc]
        exact .mk hv hn (.space h hc)
    have hc := hs h (hu c List.mem_cons_self)
    have hclosed := Blank.closed (P := WrittenStart kind name attrs props false)
      (fun w c h hc => hs h hc) (fun d hd => hu d (List.mem_cons_of_mem c hd)) hc
    rw [List.append_assoc] at hclosed
    simpa using hclosed

theorem Command.ofName?_eq_some_iff {name : String} :
    ofName? name = some map ↔ name = map.name := by
  unfold ofName?
  split
  · exact iff_of_true rfl ‹_›
  · exact iff_of_false (fun h => by cases h) ‹_›

theorem PendingTag.binding?_eq_some_iff {attrs : List Attr} {binding : String} :
    binding? attrs = some binding ↔ attrs = [⟨"each", .serial binding⟩] := by
  constructor
  · intro h
    unfold binding? at h
    split at h
    · split at h
      · rename_i hname
        cases h
        rw [hname]
      · cases h
    · cases h
  · rintro rfl
    rfl

theorem isTag_of_node {p : PendingTag} {n : Node} (h : p.node = .ok n)
    (hp : p.kind ≠ .custom → p.props = []) :
    IsTag n p.kind p.name p.attrs p.props p.children := by
  obtain ⟨name, kind, attrs, props, children⟩ := p
  cases kind with
  | regular =>
    cases h
    obtain rfl : props = [] := hp (by simp)
    exact .element
  | custom =>
    cases h
    exact .custom
  | command =>
    obtain rfl : props = [] := hp (by simp)
    cases hname : Command.ofName? name with
    | none =>
      simp only [PendingTag.node, hname] at h
      cases h
    | some command =>
      cases hb : PendingTag.binding? attrs with
      | none =>
        simp only [PendingTag.node, hname, hb] at h
        cases h
      | some binding =>
        simp only [PendingTag.node, hname, hb] at h
        cases h
        cases command
        obtain rfl := Command.ofName?_eq_some_iff.mp hname
        obtain rfl := PendingTag.binding?_eq_some_iff.mp hb
        exact .map

theorem Node.IsTag.isLiteral_eq_false {n : Node} {kind : TagKind} {name : String}
    {attrs props : List Attr} {children : List Node} (h : IsTag n kind name attrs props children) :
    n.isLiteral = false := by
  cases h <;> rfl

theorem endsInLiteral_append (nodes : List Node) (n : Node) :
    endsInLiteral (nodes ++ [n]) = n.isLiteral := by
  simp [endsInLiteral]

/-- The text of nodes and of open tags with their children, the innermost tag first. -/
inductive WrittenOpen (roots : List Node) : List PendingTag → List Char → Prop
  | none {w : List Char} (h : WrittenAll roots w) : WrittenOpen roots [] w
  | tag {p : PendingTag} {opened : List PendingTag} {named : Bool} {w v c : List Char}
      (h : WrittenOpen roots opened w)
      (hs : WrittenStart p.kind p.name p.attrs p.props named v) (hc : WrittenAll p.children c) :
      WrittenOpen roots (p :: opened) (w ++ (v ++ '>' :: c))

theorem WrittenOpen.blank {roots : List Node} {opened : List PendingTag} {w u : List Char}
    (h : WrittenOpen roots opened w) (hu : Blank u) : WrittenOpen roots opened (w ++ u) := by
  refine hu.closed (fun w c hw hc => ?_) h
  clear h
  cases hw with
  | none h => exact .none (.space h hc)
  | tag h hs hw =>
    rw [List.append_assoc, List.append_assoc, List.cons_append]
    exact .tag h hs (.space hw hc)

namespace Builder

def siblings (b : Builder) : List Node :=
  match b.opened with
  | [] => b.roots
  | p :: _ => p.children

variable {b : Builder} {n : Node}

theorem siblings_push (b : Builder) (n : Node) : (b.push n).siblings = b.siblings ++ [n] := by
  obtain ⟨body, opened, roots⟩ := b
  cases opened <;> rfl

theorem body_push (b : Builder) (n : Node) : (b.push n).body = b.body := by
  unfold push
  split <;> rfl

end Builder

def PendingTag.openTag (p : PendingTag) : OpenTag := ⟨p.name, p.kind⟩

theorem Builder.openTag_push (b : Builder) (n : Node) :
    (b.push n).opened.map PendingTag.openTag = b.opened.map PendingTag.openTag := by
  obtain ⟨body, opened, roots⟩ := b
  cases opened <;> rfl

theorem WrittenOpen.push {b : Builder} {n : Node} {w v : List Char}
    (h : WrittenOpen b.roots b.opened w) (hn : Written n v)
    (hl : n.isLiteral = true → endsInLiteral b.siblings = false) :
    WrittenOpen (b.push n).roots (b.push n).opened (w ++ v) := by
  obtain ⟨body, opened, roots⟩ := b
  cases h with
  | none h => exact .none (.node h hn hl)
  | tag h hs hc =>
    rw [List.append_assoc, List.append_assoc, List.cons_append]
    exact .tag h hs (.node hc hn hl)

/-- The text that a builder has got behind it, with whether it ends in a name. -/
inductive WrittenSoFar (b : Builder) : Bool → List Char → Prop
  | content {w : List Char} (hb : b.body = none) (h : WrittenOpen b.roots b.opened w) :
      WrittenSoFar b false w
  | body {p : PendingTag} {named : Bool} {w v : List Char} (hb : b.body = some p)
      (hp : p.children = []) (h : WrittenOpen b.roots b.opened w)
      (hs : WrittenStart p.kind p.name p.attrs p.props named v) : WrittenSoFar b named (w ++ v)

structure Agrees (s : Scanner) (b : Builder) : Prop where
  body : s.body = b.body.map PendingTag.openTag
  children : s.children = b.opened.map PendingTag.openTag

/-- Scanner and builder have come to a place behind a text: a name has been read to its end, and so
has a literal text. -/
structure Tracks (s : Scanner) (b : Builder) (w : List Char) : Prop extends Agrees s b where
  written : ∃ named, WrittenSoFar b named w ∧
    (named = true → startsWith Char.isLower s.cursor.rest = false)
  literal : b.body = none → endsInLiteral b.siblings = true →
    startsWith Scanner.isText s.cursor.rest = false

/-- Scanner and builder have come to a place in a source. -/
def Follows (source : List Char) (s : Scanner) (b : Builder) : Prop :=
  ∃ w, source = w ++ s.cursor.rest ∧ Tracks s b w

variable {s t : Scanner} {b c : Builder} {w v more : List Char} {n : Node}

theorem Agrees.push (h : Agrees s b) (n : Node) : Agrees s (b.push n) where
  body := by rw [Builder.body_push, h.body]
  children := by rw [Builder.openTag_push, h.children]

theorem Agrees.exists_body (h : Agrees s b) {tag : OpenTag} (hs : s.body = some tag) :
    ∃ p, b.body = some p ∧ p.openTag = tag := by
  rw [h.body, Option.map_eq_some_iff] at hs
  exact hs

theorem Agrees.body_eq_none (h : Agrees s b) (hs : s.body = none) : b.body = none := by
  rw [h.body, Option.map_eq_none_iff] at hs
  exact hs

theorem WrittenSoFar.of_body {p : PendingTag} {named : Bool} (h : WrittenSoFar b named w)
    (hp : b.body = some p) : ∃ w₁ w₂, w = w₁ ++ w₂ ∧ p.children = [] ∧
      WrittenOpen b.roots b.opened w₁ ∧ WrittenStart p.kind p.name p.attrs p.props named w₂ := by
  cases h with
  | content hb _ =>
    rw [hp] at hb
    cases hb
  | body hp' hpc h hs =>
    obtain rfl := Option.some.inj (hp.symm.trans hp')
    exact ⟨_, _, rfl, hpc, h, hs⟩

theorem WrittenSoFar.of_content {named : Bool} (h : WrittenSoFar b named w) (hb : b.body = none) :
    WrittenOpen b.roots b.opened w := by
  cases h with
  | content _ h => exact h
  | body hp _ _ _ =>
    rw [hb] at hp
    cases hp

theorem Tracks.of_content (ha : Agrees s b) (hb : b.body = none) (h : WrittenOpen b.roots b.opened w)
    (hl : endsInLiteral b.siblings = false) (hr : s.cursor.rest = more.dropWhile isSpace) :
    Follows (w ++ more) s b := by
  obtain ⟨u, hu, hmore⟩ := exists_blank more
  refine ⟨w ++ u, by rw [hr, List.append_assoc, ← hmore], ha, ?_, ?_⟩
  · exact ⟨false, .content hb (h.blank hu), fun h => by cases h⟩
  · intro _ he
    rw [hl] at he
    cases he

theorem Tracks.of_body {p : PendingTag} {named : Bool} (ha : Agrees s b) (hb : b.body = some p)
    (hp : p.children = []) (h : WrittenOpen b.roots b.opened w)
    (hs : WrittenStart p.kind p.name p.attrs p.props named v)
    (hn : named = true → startsWith Char.isLower more = false)
    (hr : s.cursor.rest = more.dropWhile isSpace) :
    Follows (w ++ v ++ more) s b := by
  obtain ⟨u, hu, hmore⟩ := exists_blank more
  refine ⟨w ++ (v ++ u), ?_, ha, ⟨_, .body hb hp h (hs.blank hu), fun hnamed => ?_⟩, ?_⟩
  · conv => lhs; rw [hmore]
    simp [hr]
  · rw [Bool.and_eq_true, List.isEmpty_iff] at hnamed
    obtain ⟨hnamed, rfl⟩ := hnamed
    rw [hr, ← List.nil_append (more.dropWhile isSpace), ← hmore]
    exact hn hnamed
  · intro hnone
    rw [hb] at hnone
    cases hnone

theorem Tracks.of_push (ha : Agrees s b) (hb : b.body = none) (h : WrittenOpen b.roots b.opened w)
    (hn : Written n v) (hl : n.isLiteral = false) (hr : s.cursor.rest = more.dropWhile isSpace) :
    Follows (w ++ v ++ more) s (b.push n) := by
  refine Tracks.of_content (ha.push n) ?_ (h.push hn fun he => ?_) ?_ hr
  · rw [Builder.body_push, hb]
  · rw [hl] at he
    cases he
  · rw [Builder.siblings_push, endsInLiteral_append, hl]

theorem Tracks.of_node {p : PendingTag} (hnode : p.node.map b.push = .ok c) (ha : Agrees s b)
    (hb : b.body = none) (h : WrittenOpen b.roots b.opened w)
    (hprops : p.kind ≠ .custom → p.props = [])
    (hw : ∀ n, IsTag n p.kind p.name p.attrs p.props p.children → Written n v)
    (hr : s.cursor.rest = more.dropWhile isSpace) :
    Follows (w ++ v ++ more) s c := by
  cases hn : p.node with
  | error e =>
    rw [hn] at hnode
    cases hnode
  | ok n =>
    rw [hn] at hnode
    cases hnode
    have ht := isTag_of_node hn hprops
    exact Tracks.of_push ha hb h (hw n ht) ht.isLiteral_eq_false hr

theorem startsWith_isLower {k : NameClass} {l : List Char} (h : startsWith k.accepts l = false) :
    startsWith Char.isLower l = false := by
  cases l with
  | nil => rfl
  | cons c l =>
    apply Bool.eq_false_iff.mpr
    intro hc
    have hl : c.isLower = true := hc
    have ha : k.accepts c = true := by
      cases k with
      | kebab => simp [NameClass.accepts, isLowerOrDigit, hl]
      | lowerCamel => exact isAlphanum_of_isLower hl
      | upperCamel => exact isAlphanum_of_isLower hl
    rw [startsWith, ha] at h
    cases h

theorem ofList_trim_ne_empty {w : List Char} (h : trim w ≠ []) : String.ofList (trim w) ≠ "" := by
  intro he
  apply h
  rw [← String.toList_ofList (l := trim w), he]
  rfl

theorem Tracks.of_text {w' : List Char} (h : Tracks s b w) (hopen : WrittenOpen b.roots b.opened w)
    (hb : b.body = none) (hne : w' ≠ []) (hw' : ∀ c ∈ w', Scanner.isText c = true)
    (hm : startsWith Scanner.isText more = false) (hs : s.cursor.rest = w' ++ more)
    (ho : (if trim w' = [] then none
      else some (.text (String.ofList (trim w')))).toList.foldlM Builder.token b = .ok c)
    (ha : Agrees t b) (hr : t.cursor.rest = more) : Tracks t c (w ++ w') := by
  obtain ⟨u, v, hu, hv, hsplit⟩ := exists_blanks w'
  by_cases htrim : trim w' = []
  · rw [if_pos htrim] at ho
    cases ho
    rw [htrim, List.nil_append] at hsplit
    refine ⟨ha, ⟨false, .content hb ?_, fun hf => by cases hf⟩, fun _ _ => by rw [hr]; exact hm⟩
    rw [hsplit, ← List.append_assoc]
    exact (hopen.blank hu).blank hv
  · rw [if_neg htrim, Builder.foldlM_some_iff] at ho
    rw [Builder.token_text hb (ofList_trim_ne_empty htrim)] at ho
    cases ho
    have hwritten : Written (.literal (String.ofList (trim w'))) (trim w') := by
      have hl := String.toList_ofList (l := trim w')
      have hliteral : Written (.literal (String.ofList (trim w'))) (String.ofList (trim w')).toList := by
        refine .literal (hl.symm ▸ htrim) (by rw [hl, trim_trim]) fun ch hch => hw' ch ?_
        rw [hl] at hch
        rw [hsplit]
        simp [hch]
      rwa [hl] at hliteral
    -- A literal text before this one would have gone on into it.
    have hpush := (hopen.blank hu).push hwritten fun _ => by
      apply Bool.eq_false_iff.mpr
      intro hend
      have hstop := h.literal hb hend
      obtain ⟨ch, m, rfl⟩ := List.exists_cons_of_ne_nil hne
      rw [hs, List.cons_append, startsWith, hw' ch (by simp)] at hstop
      cases hstop
    refine ⟨ha.push _, ⟨false, .content ?_ ?_, fun hf => by cases hf⟩, fun _ _ => by rw [hr]; exact hm⟩
    · rw [Builder.body_push, hb]
    · have hblank := hpush.blank hv
      rwa [List.append_assoc, List.append_assoc, ← hsplit] at hblank

namespace Tracks

variable {tag : OpenTag} {name : String} {value : AttrValue} {kind : TagKind} {u w' : List Char}
  {children : List OpenTag}

theorem exists_body (h : Tracks s b w) (hs : s.body = some tag) :
    ∃ p named w₁ w₂, b.body = some p ∧ p.openTag = tag ∧ w = w₁ ++ w₂ ∧ p.children = [] ∧
      WrittenOpen b.roots b.opened w₁ ∧ WrittenStart p.kind p.name p.attrs p.props named w₂ ∧
      (named = true → startsWith Char.isLower s.cursor.rest = false) := by
  obtain ⟨named, hw, hnamed⟩ := h.written
  obtain ⟨p, hp, htag⟩ := h.toAgrees.exists_body hs
  obtain ⟨w₁, w₂, hsplit, hpc, hopen, hstart⟩ := hw.of_body hp
  exact ⟨p, named, w₁, w₂, hp, htag, hsplit, hpc, hopen, hstart, hnamed⟩

theorem written_open (h : Tracks s b w) (hb : b.body = none) : WrittenOpen b.roots b.opened w := by
  obtain ⟨named, hw, -⟩ := h.written
  exact hw.of_content hb

theorem closeBody (h : Tracks s b w) (hs : s.body = some tag) (hu : Blank u)
    (hsr : s.cursor.rest = '/' :: (u ++ '>' :: more))
    (ho : b.token (.tag ⟨tag.name, tag.kind, some .finish, none, s.cursor.offset⟩) = .ok c)
    (hr : t.cursor.rest = more.dropWhile isSpace) (hbody : t.body = none)
    (hchildren : t.children = s.children) :
    Follows (w ++ s.cursor.rest) t c := by
  obtain ⟨p, named, w, v, hp, rfl, rfl, hpc, hopen, hstart, -⟩ := h.exists_body hs
  simp only [Builder.token, Builder.tag, hp] at ho
  have ht := Tracks.of_node (b := { b with body := none }) ho
    ⟨hbody, hchildren.trans h.children⟩ rfl hopen hstart.props_eq_nil
    (fun n hn => .childless (hpc ▸ hn) hstart hu) hr
  simpa [hsr] using ht

theorem openChildren (h : Tracks s b w) (hs : s.body = some tag) (hsr : s.cursor.rest = '>' :: more)
    (ho : b.token (.tag ⟨tag.name, tag.kind, some .finish, some .start, s.cursor.offset⟩) = .ok c)
    (hr : t.cursor.rest = more.dropWhile isSpace) (hbody : t.body = none)
    (hchildren : t.children = tag :: s.children) :
    Follows (w ++ s.cursor.rest) t c := by
  obtain ⟨p, named, w, v, hp, rfl, rfl, hpc, hopen, hstart, -⟩ := h.exists_body hs
  simp only [Builder.token, Builder.tag, hp, Except.ok.injEq] at ho
  subst ho
  have hopen' : WrittenOpen b.roots (p :: b.opened) (w ++ (v ++ ['>'])) :=
    .tag hopen hstart (hpc ▸ .nil)
  have ht := Tracks.of_content (b := { b with body := none, opened := p :: b.opened })
    ⟨hbody, by rw [hchildren, h.children, List.map_cons]⟩ rfl hopen'
    (by simp [Builder.siblings, hpc, endsInLiteral]) hr
  simpa [hsr] using ht

theorem prop (h : Tracks s b w) (hs : s.body = some tag) (hk : tag.kind = .custom)
    (hn : NameClass.lowerCamel.Spells name.toList) (hne : value ≠ .empty) (hv : value.Written u)
    (hsr : s.cursor.rest = '$' :: (name.toList ++ (u ++ more)))
    (ho : b.token (.prop (.ofValue name value)) = .ok c)
    (hr : t.cursor.rest = more.dropWhile isSpace) (hbody : t.body = some tag)
    (hchildren : t.children = s.children) :
    Follows (w ++ s.cursor.rest) t c := by
  obtain ⟨p, named, w, v, hp, rfl, rfl, hpc, hopen, @⟨v₁, v₂, hv₁, hn₁, hbody₁⟩, -⟩ :=
    h.exists_body hs
  rw [Builder.token_prop hp hk hne] at ho
  cases ho
  have ht := Tracks.of_body (s := t)
    (b := { b with body := some { p with props := p.props ++ [⟨name, value⟩] } })
    ⟨hbody, hchildren.trans h.children⟩ rfl hpc hopen (.mk hv₁ hn₁ (.prop hbody₁ hk hn hne hv))
    (fun hf => by cases hf) hr
  simpa [hsr] using ht

theorem attr (h : Tracks s b w) (hs : s.body = some tag)
    (hn : NameClass.lowerCamel.Spells name.toList) (hv : value.Written u)
    (hsr : s.cursor.rest = name.toList ++ (u ++ more))
    (he : value = .empty → startsWith Char.isAlphanum more = false)
    (ho : b.token (.attr (.ofValue name value)) = .ok c)
    (hr : t.cursor.rest = more.dropWhile isSpace) (hbody : t.body = some tag)
    (hchildren : t.children = s.children) :
    Follows (w ++ s.cursor.rest) t c := by
  obtain ⟨p, named, w, v, hp, rfl, rfl, hpc, hopen, @⟨v₁, v₂, hv₁, hn₁, hbody₁⟩, hnamed⟩ :=
    h.exists_body hs
  rw [Builder.token_attr hp] at ho
  cases ho
  -- The name does not run on from another one.
  obtain rfl : named = false := by
    apply Bool.eq_false_iff.mpr
    intro hf
    obtain ⟨ch, m, heq, hlower⟩ := hn.exists_cons
    have hstop := hnamed hf
    rw [hsr, heq, List.cons_append, startsWith, show ch.isLower = true from hlower] at hstop
    cases hstop
  have ht := Tracks.of_body (s := t)
    (b := { b with body := some { p with attrs := p.attrs ++ [⟨name, value⟩] } })
    ⟨hbody, hchildren.trans h.children⟩ rfl hpc hopen (.mk hv₁ hn₁ (.attr hbody₁ hn hv))
    (fun hf => startsWith_isLower (k := .lowerCamel) (he (of_decide_eq_true hf))) hr
  simpa [hsr] using ht

theorem closeTag (h : Tracks s b w) (hs : s.body = none) (hcons : s.children = tag :: children)
    (hclose : WrittenClose kind name w') (hsr : s.cursor.rest = w' ++ more)
    (ho : b.token (.tag ⟨name, kind, none, some .finish, s.cursor.offset⟩) = .ok c)
    (hr : t.cursor.rest = more.dropWhile isSpace) (hbody : t.body = none)
    (hchildren : t.children = children) :
    Follows (w ++ s.cursor.rest) t c := by
  have hb := h.body_eq_none hs
  have hopen := h.written_open hb
  have hc := h.children
  cases hopened : b.opened with
  | nil =>
    rw [hcons, hopened] at hc
    cases hc
  | cons p opened =>
    rw [hcons, hopened, List.map_cons, List.cons.injEq] at hc
    simp only [Builder.token, Builder.tag, hopened] at ho
    rw [hopened] at hopen
    cases hopen with
    | @tag _ _ _ w v c₁ hopen hstart hchild =>
      have ht := Tracks.of_node (b := { b with opened := opened }) ho
        ⟨by rw [hbody, hb, Option.map_none], hchildren.trans hc.2⟩ hb hopen hstart.props_eq_nil
        (fun n hn => .paired hn hstart hchild hclose) hr
      simpa [hsr] using ht

theorem openTag (h : Tracks s b w) (hs : s.body = none) (hu : Blank u)
    (hn : kind.nameClass.Spells name.toList)
    (hsr : s.cursor.rest = '<' :: (u ++ (kind.sigil ++ name.toList ++ more)))
    (ha : startsWith kind.nameClass.accepts more = false)
    (ho : b.token (.tag ⟨name, kind, some .start, none, s.cursor.offset⟩) = .ok c)
    (hr : t.cursor.rest = more.dropWhile isSpace) (hbody : t.body = some ⟨name, kind⟩)
    (hchildren : t.children = s.children) :
    Follows (w ++ s.cursor.rest) t c := by
  have hb := h.body_eq_none hs
  simp only [Builder.token, Builder.tag, hb, Except.ok.injEq] at ho
  subst ho
  have ht := Tracks.of_body (s := t)
    (b := { b with body := some (.ofToken ⟨name, kind, some .start, none, s.cursor.offset⟩) })
    ⟨hbody, hchildren.trans h.children⟩ rfl rfl (h.written_open hb) (.mk hu hn .nil)
    (fun _ => startsWith_isLower ha) hr
  simpa [hsr, PendingTag.ofToken] using ht

theorem serial {reference : String} (h : Tracks s b w) (hs : s.body = none)
    (hn : SpellsReference reference.toList)
    (hsr : s.cursor.rest = '\x7b' :: (reference.toList ++ '\x7d' :: more))
    (ho : b.token (.serial reference) = .ok c)
    (hr : t.cursor.rest = more.dropWhile isSpace) (hbody : t.body = none)
    (hchildren : t.children = s.children) :
    Follows (w ++ s.cursor.rest) t c := by
  have hb := h.body_eq_none hs
  rw [Builder.token_serial hb] at ho
  cases ho
  have ht := Tracks.of_push ⟨by rw [hbody, hb, Option.map_none], hchildren.trans h.children⟩
    hb (h.written_open hb) (.serial hn) rfl hr
  simpa [hsr] using ht

theorem moves {o : Option Token} {rest : List Char} {body : Option OpenTag}
    (h : Tracks s b w) (hm : s.Moves o rest body children)
    (ho : o.toList.foldlM Builder.token b = .ok c) (hr : t.cursor.rest = rest)
    (hbody : t.body = body) (hchildren : t.children = children) :
    Follows (w ++ s.cursor.rest) t c := by
  cases hm with
  | closeBody hs hu hsr =>
    exact h.closeBody hs hu hsr (Builder.foldlM_some_iff.mp ho) hr hbody hchildren
  | openChildren hs hsr =>
    exact h.openChildren hs hsr (Builder.foldlM_some_iff.mp ho) hr hbody hchildren
  | prop hs hk hn hne hv hsr =>
    exact h.prop hs hk hn hne hv hsr (Builder.foldlM_some_iff.mp ho) hr hbody hchildren
  | attr hs hn hv hsr he =>
    exact h.attr hs hn hv hsr (fun hempty => (he hempty).1) (Builder.foldlM_some_iff.mp ho) hr hbody
      hchildren
  | closeTag hs hcons hclose hsr =>
    exact h.closeTag hs hcons hclose hsr (Builder.foldlM_some_iff.mp ho) hr hbody hchildren
  | openTag hs hu hn hsr ha =>
    exact h.openTag hs hu hn hsr ha (Builder.foldlM_some_iff.mp ho) hr hbody hchildren
  | serial hs hn hsr =>
    exact h.serial hs hn hsr (Builder.foldlM_some_iff.mp ho) hr hbody hchildren
  | @text w' _ hs hne hw' hm hsr =>
    have hb := h.body_eq_none hs
    refine ⟨w ++ w', by rw [hsr, hr, List.append_assoc], ?_⟩
    exact h.of_text (h.written_open hb) hb hne hw' hm hsr ho
      ⟨by rw [hbody, hb, Option.map_none], hchildren.trans h.children⟩ hr

end Tracks

theorem Works.follows {u : Scanner} {d : Builder} {source : List Char} (h : Works s b u d)
    (hf : Follows source s b) : Follows source u d := by
  induction h with
  | refl s b => exact hf
  | step hc h ho _ ih =>
    obtain ⟨w, rfl, ht⟩ := hf
    exact ih (ht.moves (Scanner.moves_of_step hc h) ho rfl rfl rfl)

/-- A source that compiles is written in the way that the template asks for. -/
theorem written_of_compile {source : String} {template : Template}
    (h : compile source = .ok template) : template.Written source.toList := by
  obtain ⟨u, d, hworks, hf⟩ := compile_iff_works.mp h
  obtain ⟨v, hv, hsource⟩ := exists_blank source.toList
  have hspace : WrittenAll [] v :=
    hv.closed (P := WrittenAll []) (fun _ _ h hc => .space h hc) .nil
  have hstart : Tracks (Scanner.start source.toList) Builder.empty v :=
    ⟨⟨rfl, rfl⟩, ⟨false, .content rfl (.none hspace), fun hf => by cases hf⟩, fun _ hl => by cases hl⟩
  obtain ⟨w, hw, ht⟩ := hworks.follows ⟨v, hsource, hstart⟩
  rw [hf.rest, List.append_nil] at hw
  obtain rfl := Builder.template_eq_ok_iff.mp hf.template
  cases ht.written_open rfl with
  | none hall => rwa [hw]

end ReactiveView
