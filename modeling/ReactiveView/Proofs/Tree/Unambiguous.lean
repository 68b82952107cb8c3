import ReactiveView.Proofs.Template.Names
import ReactiveView.Proofs.Tree.Mirror

namespace ReactiveView

/-- A node of a document: an element or a text, as it is shown. -/
inductive DocumentNode where
  | element (tag : String) (attrs : Dict String) (children : List DocumentNode)
  | text (content : String)

namespace DocumentNode

/-- Put a node in front of others. A text is joined to one that comes next, and an empty text is
left out. -/
def before : DocumentNode → List DocumentNode → List DocumentNode
  | text content, text other :: rest => text (content ++ other) :: rest
  | text content, nodes => if content = "" then nodes else text content :: nodes
  | node, nodes => node :: nodes

def joined (nodes : List DocumentNode) : List DocumentNode := nodes.foldr before []

mutual

def markup : DocumentNode → String
  | element tag attrs children => Markup.element tag attrs (markupAll children)
  | text content => Markup.escapeText content

def markupAll : List DocumentNode → String
  | [] => ""
  | node :: rest => node.markup ++ markupAll rest

end

end DocumentNode

namespace VirtualNode

mutual

def document : VirtualNode → List DocumentNode
  | element tag attrs _ children _ => [.element tag attrs (DocumentNode.joined (documentAll children))]
  | text content _ => [.text content]
  | fragment _ _ children => documentAll children

def documentAll : List VirtualNode → List DocumentNode
  | [] => []
  | node :: rest => node.document ++ documentAll rest

end

mutual

def WellNamed : VirtualNode → Prop
  | element tag attrs _ children _ => NameClass.kebab.Spells tag.toList ∧
      (∀ a ∈ attrs.entries, NameClass.lowerCamel.Spells a.1.toList) ∧ AllWellNamed children
  | text _ _ => True
  | fragment _ _ children => AllWellNamed children

def AllWellNamed : List VirtualNode → Prop
  | [] => True
  | node :: rest => node.WellNamed ∧ AllWellNamed rest

end

end VirtualNode

namespace VirtualTree

def document (t : VirtualTree) : List DocumentNode :=
  DocumentNode.joined (VirtualNode.documentAll t.children)

def WellNamed (t : VirtualTree) : Prop := VirtualNode.AllWellNamed t.children

end VirtualTree

theorem Markup.escapeText_append (s t : String) :
    Markup.escapeText (s ++ t) = Markup.escapeText s ++ Markup.escapeText t := by
  rw [Markup.escapeText, String.toList_append, List.map_append, String.join_append]
  rfl

namespace DocumentNode

theorem markupAll_before (node : DocumentNode) (nodes : List DocumentNode) :
    markupAll (node.before nodes) = node.markup ++ markupAll nodes := by
  unfold before
  split
  · rw [markupAll, markupAll, markup, markup, markup, Markup.escapeText_append, String.append_assoc]
  · split
    · rename_i hempty
      rw [hempty]
      exact (String.empty_append ..).symm
    · rfl
  · rfl

theorem markupAll_joined (nodes : List DocumentNode) : markupAll (joined nodes) = markupAll nodes := by
  induction nodes with
  | nil => rfl
  | cons node rest ih =>
    change markupAll (node.before (joined rest)) = _
    rw [markupAll_before, ih, markupAll]

theorem markupAll_append (nodes more : List DocumentNode) :
    markupAll (nodes ++ more) = markupAll nodes ++ markupAll more := by
  induction nodes with
  | nil => exact (String.empty_append ..).symm
  | cons node rest ih => rw [List.cons_append, markupAll, markupAll, ih, String.append_assoc]

end DocumentNode

namespace VirtualNode

open DocumentNode (markupAll_joined markupAll_append)

mutual

theorem markupAll_document : ∀ node : VirtualNode,
    DocumentNode.markupAll node.document = node.markup
  | element tag attrs listeners children live => by
    rw [document, DocumentNode.markupAll, DocumentNode.markup, markupAll_joined,
      markupAll_documentAll children, markup]
    exact String.append_empty ..
  | text content live => by
    rw [document, DocumentNode.markupAll, markup]
    exact String.append_empty ..
  | fragment key shown children => by
    rw [document, markup, markupAll_documentAll children]

theorem markupAll_documentAll : ∀ nodes : List VirtualNode,
    DocumentNode.markupAll (documentAll nodes) = markupAll nodes
  | [] => rfl
  | node :: rest => by
    rw [documentAll, markupAll_append, markupAll_document node, markupAll_documentAll rest, markupAll]

end

end VirtualNode

theorem VirtualTree.markupAll_document (t : VirtualTree) :
    DocumentNode.markupAll t.document = t.markup := by
  rw [VirtualTree.document, DocumentNode.markupAll_joined, VirtualNode.markupAll_documentAll]
  rfl

/-- A text is cut in one way only into characters that pass a test and the rest from the first one
on that does not. -/
theorem span_inj {p : Char → Bool} {w x u v : List Char} (hw : ∀ c ∈ w, p c = true)
    (hx : ∀ c ∈ x, p c = true) (hu : startsWith p u = false) (hv : startsWith p v = false)
    (h : w ++ u = x ++ v) : w = x ∧ u = v := by
  obtain ⟨hwt, hwd⟩ := span_iff.mpr ⟨rfl, hw, hu⟩
  obtain ⟨hxt, hxd⟩ := span_iff.mpr ⟨rfl, hx, hv⟩
  rw [h] at hwt hwd
  exact ⟨hwt.symm.trans hxt, hwd.symm.trans hxd⟩

/-- A text that is written character by character can be read in one way only, if each of its
characters can be read again and none of them begins as what comes behind the text. -/
theorem flatMap_inj {code : Char → List Char} {read : List Char → Option (Char × List Char)}
    {p : Char → Bool} (hread : ∀ a u, read (code a ++ u) = some (a, u))
    (hp : ∀ a u, startsWith p (code a ++ u) = true) {s t u v : List Char}
    (hu : startsWith p u = false) (hv : startsWith p v = false)
    (h : s.flatMap code ++ u = t.flatMap code ++ v) : s = t ∧ u = v := by
  induction s generalizing t with
  | nil =>
    cases t with
    | nil => exact ⟨rfl, h⟩
    | cons b t =>
      rw [List.flatMap_nil, List.nil_append, List.flatMap_cons, List.append_assoc] at h
      rw [h, hp] at hu
      cases hu
  | cons a s ih =>
    cases t with
    | nil =>
      rw [List.flatMap_nil, List.nil_append, List.flatMap_cons, List.append_assoc] at h
      rw [← h, hp] at hv
      cases hv
    | cons b t =>
      rw [List.flatMap_cons, List.flatMap_cons, List.append_assoc, List.append_assoc] at h
      have hfirst := congrArg read h
      rw [hread, hread, Option.some.injEq, Prod.mk.injEq] at hfirst
      obtain ⟨rfl, hrest⟩ := hfirst
      obtain ⟨rfl, huv⟩ := ih hrest
      exact ⟨rfl, huv⟩

namespace Markup

def readChar : List Char → Option (Char × List Char)
  | '&' :: 'a' :: 'm' :: 'p' :: ';' :: u => some ('&', u)
  | '&' :: 'l' :: 't' :: ';' :: u => some ('<', u)
  | '&' :: 'g' :: 't' :: ';' :: u => some ('>', u)
  | '&' :: 'q' :: 'u' :: 'o' :: 't' :: ';' :: u => some ('"', u)
  | c :: u => some (c, u)
  | [] => none

def escapeValueChar (c : Char) : String := if c = '"' then "&quot;" else escapeChar c

theorem readChar_of_ne {c : Char} (h : c ≠ '&') (u : List Char) : readChar (c :: u) = some (c, u) := by
  unfold readChar
  split <;> simp_all

theorem readChar_escapeChar (c : Char) (u : List Char) :
    readChar ((escapeChar c).toList ++ u) = some (c, u) := by
  unfold escapeChar
  split
  · rename_i hc
    rw [hc]
    rfl
  split
  · rename_i hc
    rw [hc]
    rfl
  split
  · rename_i hc
    rw [hc]
    rfl
  · rename_i hc _ _
    rw [Char.toString_eq_singleton, String.toList_singleton]
    exact readChar_of_ne hc u

theorem readChar_escapeValueChar (c : Char) (u : List Char) :
    readChar ((escapeValueChar c).toList ++ u) = some (c, u) := by
  unfold escapeValueChar
  split
  · rename_i hc
    rw [hc]
    rfl
  · exact readChar_escapeChar c u

theorem startsWith_escapeChar (c : Char) (u : List Char) :
    startsWith (· != '<') ((escapeChar c).toList ++ u) = true := by
  unfold escapeChar
  split
  · rfl
  split
  · rfl
  split
  · rfl
  · rename_i _ hc _
    simpa [startsWith] using hc

theorem startsWith_escapeValueChar (c : Char) (u : List Char) :
    startsWith (· != '"') ((escapeValueChar c).toList ++ u) = true := by
  unfold escapeValueChar escapeChar
  split
  · rfl
  split
  · rfl
  split
  · rfl
  split
  · rfl
  · rename_i hc _ _ _
    simpa [startsWith] using hc

theorem toList_escapeText (s : String) :
    (escapeText s).toList = s.toList.flatMap fun c => (escapeChar c).toList := by
  rw [escapeText, String.toList_join, List.flatMap_map]

theorem toList_escapeValue (s : String) :
    (escapeValue s).toList = s.toList.flatMap fun c => (escapeValueChar c).toList := by
  rw [escapeValue, String.toList_join, List.flatMap_map]
  rfl

theorem escapeText_inj {s t : String} {u v : List Char} (hu : startsWith (· != '<') u = false)
    (hv : startsWith (· != '<') v = false)
    (h : (escapeText s).toList ++ u = (escapeText t).toList ++ v) : s = t ∧ u = v := by
  rw [toList_escapeText, toList_escapeText] at h
  obtain ⟨hst, huv⟩ := flatMap_inj readChar_escapeChar startsWith_escapeChar hu hv h
  exact ⟨String.toList_inj.mp hst, huv⟩

theorem escapeValue_inj {s t : String} {u v : List Char}
    (h : (escapeValue s).toList ++ '"' :: u = (escapeValue t).toList ++ '"' :: v) : s = t ∧ u = v := by
  rw [toList_escapeValue, toList_escapeValue] at h
  obtain ⟨hst, huv⟩ := flatMap_inj readChar_escapeValueChar startsWith_escapeValueChar rfl rfl h
  exact ⟨String.toList_inj.mp hst, (List.cons.inj huv).2⟩

def assigned (value : String) : List Char :=
  if value = "" then [] else '=' :: '"' :: ((escapeValue value).toList ++ ['"'])

theorem toList_assignment (a : String × String) :
    (assignment a).toList = ' ' :: (a.1.toList ++ assigned a.2) := by
  rw [assignment, assigned]
  by_cases h : a.2 = ""
  · simp [h]
  · simp [h]

def assignments (attrs : List (String × String)) (u : List Char) : List Char :=
  attrs.flatMap (fun a => (assignment a).toList) ++ '>' :: u

theorem assignments_cons (a : String × String) (attrs : List (String × String)) (u : List Char) :
    assignments (a :: attrs) u = ' ' :: (a.1.toList ++ (assigned a.2 ++ assignments attrs u)) := by
  rw [assignments, List.flatMap_cons, toList_assignment, assignments]
  simp only [List.cons_append, List.append_assoc]

theorem startsWith_assignments {p : Char → Bool} (hspace : p ' ' = false) (hend : p '>' = false)
    (attrs : List (String × String)) (u : List Char) :
    startsWith p (assignments attrs u) = false := by
  cases attrs with
  | nil => exact hend
  | cons a rest =>
    rw [assignments_cons]
    exact hspace

theorem startsWith_assigned {p : Char → Bool} (hspace : p ' ' = false) (hend : p '>' = false)
    (hequals : p '=' = false) (value : String) (attrs : List (String × String)) (u : List Char) :
    startsWith p (assigned value ++ assignments attrs u) = false := by
  rw [assigned]
  split
  · exact startsWith_assignments hspace hend attrs u
  · exact hequals

theorem assigned_inj {s t : String} {as bs : List (String × String)} {u v : List Char}
    (h : assigned s ++ assignments as u = assigned t ++ assignments bs v) :
    s = t ∧ assignments as u = assignments bs v := by
  have hstart := fun attrs (w : List Char) => startsWith_assignments (p := (· = '=')) (by decide)
    (by decide) attrs w
  unfold assigned at h
  split at h <;> split at h
  · rename_i hs ht
    exact ⟨hs.trans ht.symm, h⟩
  · -- One attribute has a value and the other has none.
    have hne := hstart as u
    rw [List.nil_append] at h
    rw [h] at hne
    cases hne
  · have hne := hstart bs v
    rw [List.nil_append] at h
    rw [← h] at hne
    cases hne
  · simp only [List.cons_append, List.cons.injEq, true_and, List.append_assoc, List.nil_append] at h
    exact escapeValue_inj h

theorem assignments_inj {as bs : List (String × String)} {u v : List Char}
    (has : ∀ a ∈ as, NameClass.lowerCamel.Spells a.1.toList)
    (hbs : ∀ b ∈ bs, NameClass.lowerCamel.Spells b.1.toList)
    (h : assignments as u = assignments bs v) : as = bs ∧ u = v := by
  induction as generalizing bs with
  | nil =>
    cases bs with
    | nil => exact ⟨rfl, (List.cons.inj h).2⟩
    | cons b bs =>
      rw [assignments_cons] at h
      cases h
  | cons a as ih =>
    cases bs with
    | nil =>
      rw [assignments_cons] at h
      cases h
    | cons b bs =>
      rw [List.forall_mem_cons] at has hbs
      rw [assignments_cons, assignments_cons, List.cons.injEq] at h
      have hstop := fun value attrs (w : List Char) => startsWith_assigned
        (p := NameClass.lowerCamel.accepts) (by decide) (by decide) (by decide) value attrs w
      obtain ⟨hname, hrest⟩ := span_inj has.1.accepts hbs.1.accepts (hstop _ _ _) (hstop _ _ _) h.2
      obtain ⟨hvalue, hrest⟩ := assigned_inj hrest
      obtain ⟨rfl, huv⟩ := ih has.2 hbs.2 hrest
      exact ⟨by rw [Prod.ext (String.toList_inj.mp hname) hvalue], huv⟩

theorem toList_element (tag : String) (attrs : Dict String) (content : String) (u : List Char) :
    (element tag attrs content).toList ++ u = '<' :: (tag.toList ++ assignments attrs.entries
      (content.toList ++ '<' :: '/' :: (tag.toList ++ '>' :: u))) := by
  simp [element, assignments, String.toList_join, List.flatMap_map]

end Markup

namespace DocumentNode

def isText : DocumentNode → Bool
  | text _ => true
  | element .. => false

mutual

/-- The names in a document are as they should be, adjacent texts are joined and no text is
empty. -/
def Settled : DocumentNode → Prop
  | element tag attrs children => NameClass.kebab.Spells tag.toList ∧
      (∀ a ∈ attrs.entries, NameClass.lowerCamel.Spells a.1.toList) ∧ AllSettled children
  | text content => content ≠ ""

def AllSettled : List DocumentNode → Prop
  | [] => True
  | node :: rest => node.Settled ∧ (node.isText = true → ∀ next ∈ rest.head?, next.isText = false) ∧
      AllSettled rest

end

def Ends (u : List Char) : Prop := u = [] ∨ ∃ v, u = '<' :: '/' :: v

variable {nodes more : List DocumentNode} {u v : List Char}

theorem Ends.startsWith (h : Ends u) : startsWith (· != '<') u = false := by
  obtain rfl | ⟨v, rfl⟩ := h
  · rfl
  · rfl

theorem markupAll_cons (node : DocumentNode) (rest : List DocumentNode) (u : List Char) :
    (markupAll (node :: rest)).toList ++ u = node.markup.toList ++ ((markupAll rest).toList ++ u) := by
  rw [markupAll, String.toList_append, List.append_assoc]

theorem startsWith_markupAll (hu : Ends u) (h : ∀ next ∈ nodes.head?, next.isText = false) :
    startsWith (· != '<') ((markupAll nodes).toList ++ u) = false := by
  cases nodes with
  | nil => exact hu.startsWith
  | cons node rest =>
    cases node with
    | text content => cases h _ rfl
    | element tag attrs children =>
      rw [markupAll_cons, markup, Markup.toList_element]
      rfl

theorem startsWith_text {content : String} (h : content ≠ "") (u : List Char) :
    startsWith (· != '<') ((text content).markup.toList ++ u) = true := by
  rw [markup, Markup.toList_escapeText]
  obtain ⟨c, rest, hc⟩ := List.exists_cons_of_ne_nil (mt String.toList_eq_nil_iff.mp h)
  rw [hc, List.flatMap_cons, List.append_assoc]
  exact Markup.startsWith_escapeChar c _

theorem not_ends_markup {node : DocumentNode} (h : node.Settled) : ¬Ends (node.markup.toList ++ u) := by
  intro he
  cases node with
  | text content =>
    have hstart := startsWith_text (u := u) h
    rw [he.startsWith] at hstart
    cases hstart
  | element tag attrs children =>
    obtain ⟨c, rest, hc, hlower⟩ := h.1.exists_cons
    rw [markup, Markup.toList_element, hc] at he
    obtain he | ⟨v, he⟩ := he
    · cases he
    · rw [List.cons_append, List.cons.injEq, List.cons.injEq] at he
      rw [he.2.1] at hlower
      cases hlower

theorem element_markup_inj {tag tag' : String} {attrs attrs' : Dict String}
    {children children' : List DocumentNode} (h : (element tag attrs children).Settled)
    (h' : (element tag' attrs' children').Settled)
    (heq : (element tag attrs children).markup.toList ++ u =
      (element tag' attrs' children').markup.toList ++ v) :
    tag = tag' ∧ attrs = attrs' ∧
      (markupAll children).toList ++ '<' :: '/' :: (tag.toList ++ '>' :: u) =
        (markupAll children').toList ++ '<' :: '/' :: (tag'.toList ++ '>' :: v) := by
  rw [markup, markup, Markup.toList_element, Markup.toList_element, List.cons.injEq] at heq
  have hstop := fun attrs (w : List Char) => Markup.startsWith_assignments
    (p := NameClass.kebab.accepts) (by decide) (by decide) attrs w
  obtain ⟨htags, hrest⟩ := span_inj h.1.accepts h'.1.accepts (hstop _ _) (hstop _ _) heq.2
  obtain ⟨hentries, hcontent⟩ := Markup.assignments_inj h.2.1 h'.2.1 hrest
  exact ⟨String.toList_inj.mp htags, Dict.ext hentries, hcontent⟩

theorem markupAll_ne_of_ends {node : DocumentNode} (h : AllSettled (node :: nodes)) (hv : Ends v)
    (u : List Char) : (markupAll (node :: nodes)).toList ++ u ≠ v := by
  rintro rfl
  rw [markupAll_cons] at hv
  exact not_ends_markup h.1 hv

theorem text_markup_ne_element {content tag : String} {attrs : Dict String}
    {children : List DocumentNode} (h : content ≠ "") (u v : List Char) :
    (text content).markup.toList ++ u ≠ (element tag attrs children).markup.toList ++ v := by
  intro heq
  have hstart := startsWith_text h u
  rw [heq, markup, Markup.toList_element] at hstart
  cases hstart

/-- Documents with the same markup are the same, whatever they end with. -/
theorem AllSettled.markup_inj : ∀ (nodes more : List DocumentNode) (u v : List Char),
    AllSettled nodes → AllSettled more → Ends u → Ends v →
    (markupAll nodes).toList ++ u = (markupAll more).toList ++ v → nodes = more ∧ u = v
  | [] => by
    intro more u v _ hm hu _ h
    cases more with
    | nil => exact ⟨rfl, h⟩
    | cons other others => exact absurd h.symm (markupAll_ne_of_ends hm hu v)
  | text s :: rest => by
    intro more u v hn hm hu hv h
    cases more with
    | nil => exact absurd h (markupAll_ne_of_ends hn hv u)
    | cons other others =>
      rw [markupAll_cons, markupAll_cons] at h
      cases other with
      | text t =>
        obtain ⟨rfl, hbehind⟩ := Markup.escapeText_inj (startsWith_markupAll hu (hn.2.1 rfl))
          (startsWith_markupAll hv (hm.2.1 rfl)) h
        obtain ⟨rfl, huv⟩ := markup_inj rest _ _ _ hn.2.2 hm.2.2 hu hv hbehind
        exact ⟨rfl, huv⟩
      | element tag attrs children => exact absurd h (text_markup_ne_element hn.1 _ _)
  | element tag attrs children :: rest => by
    intro more u v hn hm hu hv h
    cases more with
    | nil => exact absurd h (markupAll_ne_of_ends hn hv u)
    | cons other others =>
      rw [markupAll_cons, markupAll_cons] at h
      cases other with
      | text t => exact absurd h.symm (text_markup_ne_element hm.1 _ _)
      | element tag' attrs' children' =>
        obtain ⟨rfl, rfl, hcontent⟩ := element_markup_inj hn.1 hm.1 h
        -- The children end at the closing tag, which has the same name in both.
        obtain ⟨rfl, hclose⟩ :=
          markup_inj children _ _ _ hn.1.2.2 hm.1.2.2 (.inr ⟨_, rfl⟩) (.inr ⟨_, rfl⟩) hcontent
        rw [List.cons.injEq, List.cons.injEq] at hclose
        have hbehind := List.append_cancel_left hclose.2.2
        obtain ⟨rfl, huv⟩ := markup_inj rest _ _ _ hn.2.2 hm.2.2 hu hv (List.cons.inj hbehind).2
        exact ⟨rfl, huv⟩

theorem allSettled_before {node : DocumentNode} (hn : node.isText = false → node.Settled)
    (hs : AllSettled nodes) : AllSettled (node.before nodes) := by
  unfold before
  split
  · obtain ⟨hne, hnext, hrest⟩ := hs
    refine ⟨?_, hnext, hrest⟩
    simp_all [Settled]
  · rename_i content _ hnot
    split
    · exact hs
    · refine ⟨‹_›, fun _ next hnext => ?_, hs⟩
      cases next with
      | element => rfl
      | text other =>
        obtain ⟨rest, rfl⟩ := List.head?_eq_some_iff.mp hnext
        exact absurd rfl (hnot other rest)
  · rename_i hnot _
    cases node with
    | text content => exact absurd rfl (hnot content)
    | element => exact ⟨hn rfl, fun htext => (by cases htext), hs⟩

theorem allSettled_joined (h : ∀ node ∈ nodes, node.isText = false → node.Settled) :
    AllSettled (joined nodes) := by
  induction nodes with
  | nil => trivial
  | cons node rest ih =>
    rw [List.forall_mem_cons] at h
    exact allSettled_before h.1 (ih h.2)

end DocumentNode

namespace VirtualNode

open DocumentNode (allSettled_joined)

mutual

theorem WellNamed.settled : ∀ {node : VirtualNode}, node.WellNamed →
    ∀ d ∈ node.document, d.isText = false → d.Settled
  | element tag attrs _ children _, ⟨htag, hattrs, hchildren⟩, d, hd, _ => by
    rw [document, List.mem_singleton] at hd
    rw [hd]
    exact ⟨htag, hattrs, allSettled_joined (AllWellNamed.settled hchildren)⟩
  | text content _, _, d, hd, hnot => by
    rw [document, List.mem_singleton] at hd
    rw [hd] at hnot
    cases hnot
  | fragment _ _ children, h, d, hd, hnot => by
    rw [document] at hd
    exact AllWellNamed.settled (show AllWellNamed children from h) d hd hnot

theorem AllWellNamed.settled : ∀ {nodes : List VirtualNode}, AllWellNamed nodes →
    ∀ d ∈ documentAll nodes, d.isText = false → d.Settled
  | [], _, d, hd, _ => by
    rw [documentAll] at hd
    exact absurd hd List.not_mem_nil
  | node :: rest, h, d, hd, hnot => by
    rw [documentAll, List.mem_append] at hd
    obtain hd | hd := hd
    · exact WellNamed.settled h.1 d hd hnot
    · exact AllWellNamed.settled h.2 d hd hnot

end

end VirtualNode

namespace VirtualTree

theorem html_paint (t : VirtualTree) : (t.paint Surface.empty).2.html = t.markup :=
  (painted_paint_empty t).html_eq.trans (markup_eq_of_bare (bare_paint t _))

/-- Two trees painted afresh show the same markup exactly if they are the same document. -/
theorem html_eq_iff {t u : VirtualTree} (ht : t.WellNamed) (hu : u.WellNamed) :
    (t.paint Surface.empty).2.html = (u.paint Surface.empty).2.html ↔ t.document = u.document := by
  rw [html_paint, html_paint, ← t.markupAll_document, ← u.markupAll_document]
  constructor
  · intro h
    have hlist := congrArg (fun s => s.toList ++ []) h
    exact (DocumentNode.AllSettled.markup_inj _ _ _ _
      (DocumentNode.allSettled_joined (VirtualNode.AllWellNamed.settled ht))
      (DocumentNode.allSettled_joined (VirtualNode.AllWellNamed.settled hu))
      (.inl rfl) (.inl rfl) hlist).1
  · exact congrArg _

def quoting (content : List VirtualNode) : VirtualNode :=
  .element "p" (Dict.empty.insert "title" "<p title=\"\">") [] content none

def quoted : VirtualTree :=
  .ofChildren [.fragment (.component "Quote") true [quoting [.ofText "</p>", .ofText "&lt;p"]]]

def requoted : VirtualTree :=
  .ofChildren [quoting [.ofText "</p>&l", .ofText "", .ofText "t;p"]]

/-- Markup that is quoted in texts stays text, however the texts are cut. -/
theorem html_eq_iff_quoting :
    (quoted.paint Surface.empty).2.html = (requoted.paint Surface.empty).2.html ∧
      quoted.document = requoted.document := by
  have hquoting : ∀ content, VirtualNode.AllWellNamed content → (quoting content).WellNamed := by
    intro content hcontent
    refine ⟨(NameClass.admits_iff .kebab).mp (by decide), ?_, hcontent⟩
    exact List.forall_mem_singleton.mpr ((NameClass.admits_iff .lowerCamel).mp (by decide))
  have hhtml : (quoted.paint Surface.empty).2.html = (requoted.paint Surface.empty).2.html := by
    decide +kernel
  refine ⟨hhtml, (html_eq_iff ?_ ?_).mp hhtml⟩
  · exact ⟨⟨hquoting _ ⟨trivial, trivial, trivial⟩, trivial⟩, trivial⟩
  · exact ⟨hquoting _ ⟨trivial, trivial, trivial, trivial⟩, trivial⟩

end VirtualTree

end ReactiveView
