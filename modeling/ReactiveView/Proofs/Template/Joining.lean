import Mathlib.Data.List.Induction
import Mathlib.Data.String.Basic
import ReactiveView.Proofs.Template.Complete
import ReactiveView.Proofs.Template.Lockstep
import ReactiveView.Proofs.Template.Running
import ReactiveView.Proofs.Template.Shifting

namespace ReactiveView

/-- A text behind which a run of characters cannot go on does not change the run before it. -/
theorem span_append {p : Char → Bool} {v : List Char} (h : startsWith p v = false) (w : List Char) :
    (w ++ v).takeWhile p = w.takeWhile p ∧ (w ++ v).dropWhile p = w.dropWhile p ++ v := by
  obtain ⟨hw, hp, hs⟩ := span_iff.mp ⟨rfl, rfl⟩
  refine span_iff.mpr ⟨?_, hp, startsWith_append hs h⟩
  rw [← List.append_assoc, ← hw]

/-- A text that starts with a tag or a reference. -/
def Opening (w : List Char) : Prop := ∃ c more, w = c :: more ∧ (c = '<' ∨ c = '\x7b')

/-- A text at whose start the names, the values and the white space before it end: it starts with a
tag, a reference or the end of a body. -/
def Parting (w : List Char) : Prop := ∃ c more, w = c :: more ∧ (c = '<' ∨ c = '\x7b' ∨ c = '/')

section Starts

variable {v : List Char} {p : Char → Bool}

theorem Opening.startsWith_eq_false (h : Opening v) (ht : p '<' = false) (hr : p '\x7b' = false) :
    startsWith p v = false := by
  obtain ⟨c, more, rfl, rfl | rfl⟩ := h
  · exact ht
  · exact hr

theorem Opening.parting (h : Opening v) : Parting v := by
  obtain ⟨c, more, rfl, hc⟩ := h
  exact ⟨c, more, rfl, hc.imp_right .inl⟩

theorem Parting.startsWith_eq_false (h : Parting v) (ht : p '<' = false) (hr : p '\x7b' = false)
    (he : p '/' = false) : startsWith p v = false := by
  obtain ⟨c, more, rfl, rfl | rfl | rfl⟩ := h
  · exact ht
  · exact hr
  · exact he

theorem Parting.dropWhile_append (h : Parting v) (w : List Char) :
    (w ++ v).dropWhile isSpace = w.dropWhile isSpace ++ v :=
  (span_append (h.startsWith_eq_false (by decide) (by decide) (by decide)) w).2

end Starts

theorem WrittenClose.of_spells {kind : TagKind} {name : String}
    (hn : kind.nameClass.Spells name.toList) :
    WrittenClose kind name ('<' :: '/' :: (kind.sigil ++ name.toList) ++ ['>']) := by
  have h : WrittenClose kind name _ := .mk .nil .nil .nil hn
  simpa using h

namespace Scanner

open Cursor

/-- A scanner with more text behind the text it has, in the children of further tags. -/
def within (s : Scanner) (v : List Char) (around : List OpenTag) : Scanner :=
  ⟨⟨s.cursor.rest ++ v, s.cursor.offset⟩, s.body, s.children ++ around⟩

variable {s t : Scanner} {o : Option Token} {ch : Char} {r rest v : List Char}
  {body : Option OpenTag} {children : List OpenTag}

/-- A move is the same in a longer text. Where it ends outside of bodies, text must not go on. -/
theorem Moves.within (h : Moves s o rest body children) (hv : Parting v)
    (ht : body = none → rest = [] → startsWith isText v = false) (around : List OpenTag) :
    Moves (s.within v around) o (rest ++ v) body (children ++ around) := by
  have hrest : ∀ {w}, s.cursor.rest = w → (s.within v around).cursor.rest = w ++ v :=
    fun hr => congrArg (· ++ v) hr
  cases h with
  | closeBody hb hu hr =>
    rw [← hv.dropWhile_append]
    exact .closeBody hb hu ((hrest hr).trans (by simp))
  | openChildren hb hr =>
    rw [← hv.dropWhile_append]
    exact .openChildren hb (hrest hr)
  | prop hb hk hn hne hu hr =>
    rw [← hv.dropWhile_append]
    exact .prop hb hk hn hne hu ((hrest hr).trans (by simp))
  | attr hb hn hu hr he =>
    rw [← hv.dropWhile_append]
    refine .attr hb hn hu ((hrest hr).trans (by simp)) fun hempty => ?_
    rw [hv.dropWhile_append]
    exact ⟨startsWith_append (he hempty).1 (hv.startsWith_eq_false rfl rfl rfl),
      startsWith_append (he hempty).2 (hv.startsWith_eq_false rfl rfl rfl)⟩
  | closeTag hb hc hw hr =>
    rw [← hv.dropWhile_append]
    exact .closeTag hb (congrArg (· ++ around) hc) hw ((hrest hr).trans (by simp))
  | @openTag kind _ _ _ hb hu hn hr ha =>
    rw [← hv.dropWhile_append]
    refine .openTag hb hu hn ((hrest hr).trans (by simp)) (startsWith_append ha ?_)
    exact hv.startsWith_eq_false (by cases kind <;> rfl) (by cases kind <;> rfl)
      (by cases kind <;> rfl)
  | serial hb hn hr =>
    rw [← hv.dropWhile_append]
    exact .serial hb hn ((hrest hr).trans (by simp))
  | text hb hne hw hm hr =>
    refine .text hb hne hw ?_ ((hrest hr).trans (by simp))
    cases rest with
    | nil => exact ht rfl rfl
    | cons c rest => exact hm

theorem Moves.exists_step {w : List Char} (h : Moves s o rest body children)
    (hw : s.cursor.rest = w ++ rest) : ∃ ch r, s.cursor.rest = ch :: r ∧
      s.step ch = .ok (o, ⟨⟨rest, s.cursor.offset + width w⟩, body, children⟩) := by
  obtain ⟨ch, r, ⟨⟨rest', offset⟩, body', children'⟩, hr, hs, rfl, rfl, rfl⟩ := h.steps
  obtain ⟨w', -, hw', ho⟩ := advances_step hr hs
  have heq : w' = w := List.append_cancel_right (hw'.symm.trans hw)
  rw [heq] at ho
  exact ⟨ch, r, hr, ho ▸ hs⟩

theorem Moves.tokens {w : List Char} (h : Moves s o rest body children)
    (hw : s.cursor.rest = w ++ rest) : s.tokens =
      (⟨⟨rest, s.cursor.offset + width w⟩, body, children⟩ : Scanner).tokens.map (o.toList ++ ·) := by
  obtain ⟨ch, r, hr, hs⟩ := h.exists_step hw
  exact tokens_of_step hr hs

theorem step_within (hc : s.cursor.rest = ch :: r) (h : s.step ch = .ok (o, t)) (hv : Parting v)
    (ht : t.body = none → t.cursor.rest = [] → startsWith isText v = false)
    (around : List OpenTag) : (s.within v around).step ch = .ok (o, t.within v around) := by
  obtain ⟨w, -, hw, ho⟩ := advances_step hc h
  have hrest : (s.within v around).cursor.rest = w ++ (t.cursor.rest ++ v) := by
    rw [← List.append_assoc, ← hw]
    rfl
  obtain ⟨ch', r', hr', hs⟩ := ((moves_of_step hc h).within hv ht around).exists_step hrest
  have hch : (s.within v around).cursor.rest = ch :: (r ++ v) := congrArg (· ++ v) hc
  rw [hch] at hr'
  cases hr'
  rw [hs]
  exact congrArg (fun n => Except.ok (o, Scanner.mk ⟨t.cursor.rest ++ v, n⟩ t.body _)) ho.symm

theorem Reads.within {ts : List Token} (h : Reads s ts t) (hv : Parting v)
    (ht : t.body = none → t.cursor.rest = [] → startsWith isText v = false)
    (around : List OpenTag) : Reads (s.within v around) ts (t.within v around) := by
  induction h with
  | refl s => exact .refl _
  | @step s u t o ts ch r hc h rest ih =>
    have hc' : (s.within v around).cursor.rest = ch :: (r ++ v) := congrArg (· ++ v) hc
    refine .step hc' (step_within hc h hv (fun hb hr => ?_) around) (ih ht)
    -- Only the last place of a run can be at the end of the text.
    cases rest with
    | refl => exact ht hb hr
    | step hc _ _ =>
      rw [hr] at hc
      cases hc

/-- Where a source that is scanned to its end stands in a longer one, its tokens come first, and
what follows is scanned as if it stood alone in the tags around. -/
theorem tokens_within {ts : List Token} (h : s.tokens = .ok ts) (hv : Opening v)
    (around : List OpenTag) : (s.within v around).tokens =
      (⟨⟨v, s.cursor.offset + width s.cursor.rest⟩, none, around⟩ : Scanner).tokens.map (ts ++ ·) := by
  obtain ⟨t, ht, hr, hb, hc⟩ := exists_reads_of_ok h
  obtain ⟨w, hw, ho⟩ := ht.reaches
  have hend : t.within v around = ⟨⟨v, s.cursor.offset + width s.cursor.rest⟩, none, around⟩ := by
    rw [hw, hr, List.append_nil, ← ho, Scanner.within, hr, hb, hc]
    rfl
  rw [← hend]
  exact (ht.within hv.parting (fun _ _ => hv.startsWith_eq_false rfl rfl) around).tokens

theorem start_append (u : List Char) (hv : Parting v) : start (u ++ v) = (start u).within v [] := by
  obtain ⟨ht, hd⟩ := span_append (hv.startsWith_eq_false (p := isSpace) rfl rfl rfl) u
  change Scanner.mk ⟨(u ++ v).dropWhile isSpace, 0 + width ((u ++ v).takeWhile isSpace)⟩ none [] = _
  rw [ht, hd]
  rfl

theorem start_of_opening (hv : Opening v) : start v = ⟨⟨v, 0⟩, none, []⟩ := by
  obtain ⟨ht, hd⟩ := span_append (hv.startsWith_eq_false (p := isSpace) rfl rfl) []
  change Scanner.mk ⟨v.dropWhile isSpace, 0 + width (v.takeWhile isSpace)⟩ none [] = _
  rw [← List.nil_append v, ht, hd]
  rfl

theorem offset_start_add (u : List Char) :
    (start u).cursor.offset + width (start u).cursor.rest = width u := by
  obtain ⟨w, hw, ho⟩ := reaches_skipSpaces (Cursor.start u)
  change (Cursor.start u).skipSpaces.offset + width (Cursor.start u).skipSpaces.rest = _
  rw [ho, Nat.add_assoc, ← width_append, ← hw]
  exact Nat.zero_add _

theorem tokens_start_append {u : List Char} {ts : List Token} (h : (start u).tokens = .ok ts)
    (hv : Opening v) :
    (start (u ++ v)).tokens = ((start v).shift (width u)).tokens.map (ts ++ ·) := by
  rw [start_append u hv.parting, tokens_within h hv, offset_start_add, start_of_opening hv]
  rfl

section Tag

variable {kind : TagKind} {name : String} {w : List Char}

theorem tokens_opened (hn : kind.nameClass.Spells name.toList) (hw : w = kind.sigil ++ name.toList)
    (u : List Char) : (⟨⟨'<' :: w ++ '>' :: u, 0⟩, none, []⟩ : Scanner).tokens =
      (⟨⟨u.dropWhile isSpace, 2 + width w + width (u.takeWhile isSpace)⟩, none, [⟨name, kind⟩]⟩ :
        Scanner).tokens.map ([.tag ⟨name, kind, some .start, none, 0⟩,
          .tag ⟨name, kind, some .finish, some .start, 1 + width w⟩] ++ ·) := by
  have hstart : Moves ⟨⟨'<' :: w ++ '>' :: u, 0⟩, none, []⟩
      (some (.tag ⟨name, kind, some .start, none, 0⟩)) ('>' :: u) (some ⟨name, kind⟩) [] := by
    rw [← dropWhile_isSpace_cons (c := '>') (by decide)]
    exact .openTag rfl .nil hn (by rw [hw]; rfl) (by cases kind <;> rfl)
  have hfinish := Moves.openChildren (s := ⟨⟨'>' :: u, 1 + width w⟩, some ⟨name, kind⟩, []⟩) rfl rfl
  have hoffset : 0 + width ('<' :: w) = 1 + width w := Nat.zero_add _
  rw [hstart.tokens rfl, hoffset, hfinish.tokens (w := '>' :: u.takeWhile isSpace)
    (congrArg (List.cons '>') List.takeWhile_append_dropWhile.symm)]
  have hwidth : 1 + width w + width ('>' :: u.takeWhile isSpace) =
      2 + width w + width (u.takeWhile isSpace) := by
    change 1 + width w + (1 + width (u.takeWhile isSpace)) = _
    omega
  rw [← hwidth]
  cases Scanner.tokens _ <;> rfl

theorem tokens_closed (hn : kind.nameClass.Spells name.toList) (hw : w = kind.sigil ++ name.toList)
    (n : Nat) (tag : OpenTag) : (⟨⟨'<' :: '/' :: w ++ ['>'], n⟩, none, [tag]⟩ : Scanner).tokens =
      .ok [.tag ⟨name, kind, none, some .finish, n⟩] := by
  have hclose : WrittenClose kind name ('<' :: '/' :: w ++ ['>']) := hw ▸ .of_spells hn
  have hm : Moves ⟨⟨'<' :: '/' :: w ++ ['>'], n⟩, none, [tag]⟩
      (some (.tag ⟨name, kind, none, some .finish, n⟩)) ([].dropWhile isSpace) none [] :=
    .closeTag rfl rfl hclose (List.append_nil _).symm
  rw [hm.tokens (List.append_nil _).symm, tokens_of_end rfl]
  rfl

theorem tokens_start_wrap (hn : kind.nameClass.Spells name.toList)
    (hw : w = kind.sigil ++ name.toList) {u : List Char} {ts : List Token}
    (h : (start u).tokens = .ok ts) :
    (start ('<' :: w ++ '>' :: (u ++ ('<' :: '/' :: w ++ ['>'])))).tokens =
      .ok (.tag ⟨name, kind, some .start, none, 0⟩ ::
        .tag ⟨name, kind, some .finish, some .start, 1 + width w⟩ ::
        (ts.map (Token.shift (2 + width w)) ++
          [.tag ⟨name, kind, none, some .finish, 2 + width w + width u⟩])) := by
  have hopen : Opening ('<' :: '/' :: w ++ ['>']) := ⟨'<', _, rfl, .inl rfl⟩
  obtain ⟨htake, hdrop⟩ := span_append (hopen.startsWith_eq_false (p := isSpace) rfl rfl) u
  have hcontent : ((start u).shift (2 + width w)).tokens = .ok (ts.map (Token.shift (2 + width w))) := by
    rw [tokens_shift, h]
    rfl
  have hmiddle := tokens_within hcontent hopen [⟨name, kind⟩]
  have hoffset : ((start u).shift (2 + width w)).cursor.offset +
      width ((start u).shift (2 + width w)).cursor.rest = 2 + width w + width u := by
    rw [← offset_start_add u, ← Nat.add_assoc]
    rfl
  rw [hoffset, tokens_closed hn hw] at hmiddle
  rw [start_of_opening (v := '<' :: w ++ _) ⟨'<', _, rfl, .inl rfl⟩, tokens_opened hn hw, htake,
    hdrop]
  have hsame : (start u).cursor.offset = width (u.takeWhile isSpace) := Nat.zero_add _
  rw [← hsame]
  exact congrArg (Except.map _) hmiddle

end Tag

end Scanner

namespace Node

variable {n : Node} {nodes : List Node} {w v : List Char}

theorem WrittenAll.around {nodes : List Node} {w : List Char} (h : WrittenAll nodes w) :
    (nodes = [] → Blank w) ∧ ∀ n, nodes = [n] →
      ∃ u v y, w = u ++ (v ++ y) ∧ Blank u ∧ Written n v ∧ Blank y := by
  cases h with
  | nil => exact ⟨fun _ => .nil, fun n h => by cases h⟩
  | @space _ w c h hc =>
    have hblank : Blank [c] := List.forall_mem_singleton.mpr hc
    obtain ⟨hnone, hone⟩ := h.around
    refine ⟨fun he => List.forall_mem_append.mpr ⟨hnone he, hblank⟩, fun n he => ?_⟩
    obtain ⟨u, v, y, rfl, hu, hv, hy⟩ := hone n he
    exact ⟨u, v, y ++ [c], by simp, hu, hv, List.forall_mem_append.mpr ⟨hy, hblank⟩⟩
  | @node before last w v h hn _ =>
    obtain ⟨hnone, -⟩ := h.around
    refine ⟨fun he => by simp at he, fun n he => ?_⟩
    obtain ⟨rfl, hlast⟩ := List.append_eq_singleton_iff.mp he |>.resolve_right (by simp)
    cases hlast
    exact ⟨w, v, [], by simp, hnone rfl, hn, .nil⟩
termination_by nodes.length + w.length

theorem WrittenAll.push (h : WrittenAll nodes w) (hn : WrittenAll [n] v)
    (hl : n.isLiteral = true → endsInLiteral nodes = false) :
    WrittenAll (nodes ++ [n]) (w ++ v) := by
  obtain ⟨u, x, y, rfl, hu, hx, hy⟩ := hn.around.2 n rfl
  rw [← List.append_assoc, ← List.append_assoc]
  exact hy.closed (fun _ _ => .space) (.node (hu.closed (fun _ _ => .space) h) hx hl)

theorem WrittenAll.isLiteral_eq_false (h : WrittenAll [n] w) (hw : Opening w) :
    n.isLiteral = false := by
  obtain ⟨u, v, y, rfl, hu, hv, -⟩ := h.around.2 n rfl
  have htext := hw.startsWith_eq_false (p := Scanner.isText) rfl rfl
  cases hv with
  | @literal text hne _ hall =>
    obtain ⟨c, more, heq⟩ := List.exists_cons_of_ne_nil hne
    have hc : Scanner.isText c = true := hall c (by simp [heq])
    rw [heq] at htext
    cases u with
    | nil => exact absurd hc (by simpa [startsWith] using htext)
    | cons b u =>
      have hb := isText_of_isSpace (hu b List.mem_cons_self)
      exact absurd hb (by simpa [startsWith] using htext)
  | serial => rfl
  | childless ht _ _ => exact ht.isLiteral_eq_false
  | paired ht _ _ _ => exact ht.isLiteral_eq_false

theorem writtenAll_join {pieces : List (String × Template)}
    (h : ∀ p ∈ pieces, compile p.1 = .ok p.2) (ho : ∀ p ∈ pieces.tail, Opening p.1.toList) :
    WrittenAll (pieces.map (·.2.root)) (pieces.flatMap (·.1.toList)) := by
  induction pieces using List.reverseRecOn with
  | nil => exact .nil
  | append_singleton pieces p ih =>
    have hp : WrittenAll [p.2.root] p.1.toList := written_of_compile (h p (by simp))
    rw [List.map_append, List.flatMap_append, List.flatMap_singleton]
    cases pieces with
    | nil => exact hp
    | cons first pieces =>
      refine (ih (fun q hq => h q (List.mem_append_left _ hq)) fun q hq =>
        ho q (List.mem_append_left _ hq)).push hp fun hl => ?_
      rw [hp.isLiteral_eq_false (ho p (by simp))] at hl
      cases hl

end Node

theorem width_toList (source : String) : width source.toList = source.utf8ByteSize := by
  have hlen : ∀ cs : List Char, width cs = String.utf8Len cs := by
    intro cs
    induction cs with
    | nil => rfl
    | cons c cs ih =>
      change c.utf8Size + width cs = String.utf8Len cs + c.utf8Size
      rw [ih, Nat.add_comm]
  rw [hlen, ← String.utf8ByteSize_ofList, String.ofList_toList]

theorem tokenize_eq_error_iff {source : String} {e : LexError} : tokenize source = .error e ↔
    ∃ fault, (Scanner.start source.toList).tokens = .error fault ∧
      fault.locate source.toList = e := by
  unfold tokenize
  cases (Scanner.start source.toList).tokens with
  | ok ts => exact iff_of_false (fun h => by cases h) fun ⟨_, h, _⟩ => by cases h
  | error fault =>
    constructor
    · intro h
      cases h
      exact ⟨fault, rfl, rfl⟩
    · rintro ⟨_, h, rfl⟩
      cases h
      rfl

section Wrap

variable {kind : TagKind} {name tag : String}

theorem toList_wrap (tag source : String) :
    ("<" ++ tag ++ ">" ++ source ++ "</" ++ tag ++ ">").toList =
      '<' :: tag.toList ++ '>' :: (source.toList ++ ('<' :: '/' :: tag.toList ++ ['>'])) := by
  simp

theorem compile_wrap {node : Node} {pieces : List (String × Template)}
    (hn : kind.nameClass.Spells name.toList) (ht : tag.toList = kind.sigil ++ name.toList)
    (h : ∀ p ∈ pieces, compile p.1 = .ok p.2) (ho : ∀ p ∈ pieces.tail, Opening p.1.toList)
    (hnode : node.IsTag kind name [] [] (pieces.map (·.2.root))) :
    compile ("<" ++ tag ++ ">" ++ String.join (pieces.map (·.1)) ++ "</" ++ tag ++ ">") =
      .ok ⟨node⟩ := by
  have hstart : WrittenStart kind name [] [] true _ := .mk .nil hn .nil
  have hclose := WrittenClose.mk .nil .nil .nil hn
  have hall := Node.Written.paired hnode hstart (Node.writtenAll_join h ho) hclose
  apply compile_of_written
  have hroot : Node.WrittenAll [node] _ := .node .nil hall fun _ => rfl
  rw [Template.Written, toList_wrap, String.toList_join, ht]
  simpa [List.flatMap_map] using hroot

end Wrap

/-- Sources are read alone, whatever stands before or around them. Behind a source that has tokens,
one that starts with a tag or a reference has the tokens that it has alone, or the fault that it has
alone, with the bytes before it added to every offset. In a tag a source has the tokens that it has
alone, between those of the tag; and sources of templates, put together in a tag, are a source of
the tag with the roots of these templates as its children. -/
theorem pieces_read_alone :
    (∀ (first second : String) (before : List Token), tokenize first = .ok before →
      Opening second.toList →
      (∀ after, tokenize second = .ok after →
        tokenize (first ++ second) = .ok (before ++ after.map (Token.shift first.utf8ByteSize))) ∧
      ∀ e, tokenize second = .error e → tokenize (first ++ second) = .error
        (LexFault.locate (first ++ second).toList ⟨e.kind, first.utf8ByteSize + e.offset⟩)) ∧
    ∀ (kind : TagKind) (name tag : String), kind.nameClass.Spells name.toList →
      tag.toList = kind.sigil ++ name.toList →
      (∀ (source : String) (tokens : List Token), tokenize source = .ok tokens →
        tokenize ("<" ++ tag ++ ">" ++ source ++ "</" ++ tag ++ ">") =
          .ok (.tag ⟨name, kind, some .start, none, 0⟩ ::
            .tag ⟨name, kind, some .finish, some .start, 1 + tag.utf8ByteSize⟩ ::
            (tokens.map (Token.shift (2 + tag.utf8ByteSize)) ++
              [.tag ⟨name, kind, none, some .finish,
                2 + tag.utf8ByteSize + source.utf8ByteSize⟩]))) ∧
      ∀ (pieces : List (String × Template)) (node : Node),
        (∀ p ∈ pieces, compile p.1 = .ok p.2) → (∀ p ∈ pieces.tail, Opening p.1.toList) →
        node.IsTag kind name [] [] (pieces.map (·.2.root)) →
        compile ("<" ++ tag ++ ">" ++ String.join (pieces.map (·.1)) ++ "</" ++ tag ++ ">") =
          .ok ⟨node⟩ := by
  refine ⟨fun first second before hfirst ho => ?_, fun kind name tag hn ht => ⟨?_, ?_⟩⟩
  · have happend := Scanner.tokens_start_append (tokenize_eq_ok_iff.mp hfirst) ho
    rw [Scanner.tokens_shift, width_toList, ← String.toList_append] at happend
    constructor
    · intro after hafter
      rw [tokenize_eq_ok_iff, happend, tokenize_eq_ok_iff.mp hafter]
      rfl
    · intro e he
      obtain ⟨fault, hfault, rfl⟩ := tokenize_eq_error_iff.mp he
      exact tokenize_eq_error_iff.mpr ⟨_, by rw [happend, hfault]; rfl, rfl⟩
  · intro source tokens h
    rw [tokenize_eq_ok_iff, toList_wrap,
      Scanner.tokens_start_wrap hn ht (tokenize_eq_ok_iff.mp h), width_toList, width_toList]
  · exact fun pieces node h ho hnode => compile_wrap hn ht h ho hnode

theorem pieces_read_alone_greeting :
    tokenize ("hello " ++ "<hr/>") = .ok [.text "hello",
      .tag ⟨"hr", .regular, some .start, none, 6⟩, .tag ⟨"hr", .regular, some .finish, none, 9⟩] ∧
    tokenize ("hello " ++ "\x7b1\x7d") = .error ⟨.invalidReference "1", 7, 1, 8⟩ ∧
    tokenize ("<" ++ "$map" ++ ">" ++ "hello " ++ "</" ++ "$map" ++ ">") =
      .ok [.tag ⟨"map", .command, some .start, none, 0⟩,
        .tag ⟨"map", .command, some .finish, some .start, 5⟩, .text "hello",
        .tag ⟨"map", .command, none, some .finish, 12⟩] ∧
    compile ("<" ++ "p" ++ ">" ++ "hello \x7bwho\x7d" ++ "</" ++ "p" ++ ">") =
      .ok ⟨.element "p" [] [.literal "hello", .serial "who"]⟩ := by
  have hhello : tokenize "hello " = .ok [.text "hello"] := by decide +kernel
  have hrule : tokenize "<hr/>" = .ok [.tag ⟨"hr", .regular, some .start, none, 0⟩,
    .tag ⟨"hr", .regular, some .finish, none, 3⟩] := by decide +kernel
  have hfault : tokenize "\x7b1\x7d" = .error ⟨.invalidReference "1", 1, 1, 2⟩ := by decide +kernel
  have hliteral : (Node.literal "hello").Written "hello".toList :=
    .literal (by decide) (by decide) (List.all_eq_true.mp rfl)
  have hserial : (Node.serial "who").Written "\x7bwho\x7d".toList :=
    .serial (isReference_iff.mp (by decide))
  have hfirst : compile "hello " = .ok ⟨.literal "hello"⟩ :=
    compile_of_written (.space (.node .nil hliteral fun _ => rfl) (by decide))
  have hsecond : compile "\x7bwho\x7d" = .ok ⟨.serial "who"⟩ :=
    compile_of_written (.node .nil hserial fun _ => rfl)
  obtain ⟨hjoin, hwrap⟩ := pieces_read_alone
  obtain ⟨htokens, -⟩ := hwrap .command "map" "$map"
    ((NameClass.admits_iff .lowerCamel).mp (by decide)) rfl
  obtain ⟨-, hcompile⟩ := hwrap .regular "p" "p" ((NameClass.admits_iff .kebab).mp (by decide)) rfl
  refine ⟨(hjoin "hello " "<hr/>" _ hhello ⟨'<', _, rfl, .inl rfl⟩).1 _ hrule,
    (hjoin "hello " "\x7b1\x7d" _ hhello ⟨'\x7b', _, rfl, .inr rfl⟩).2 _ hfault,
    htokens "hello " _ hhello,
    hcompile [("hello ", ⟨.literal "hello"⟩), ("\x7bwho\x7d", ⟨.serial "who"⟩)] _ ?_ ?_ .element⟩
  · exact List.forall_mem_cons.mpr ⟨hfirst, List.forall_mem_singleton.mpr hsecond⟩
  · exact List.forall_mem_singleton.mpr ⟨'\x7b', _, rfl, .inr rfl⟩

end ReactiveView
