import Unescape.Proofs.RangeValidation

set_option autoImplicit false

/-! # Which injections are accepted

To inject a part of a literal, a caller names two spans: the contents of the literal, in the document, and
the part, in the literal. Each is looked at in the text that it is about, the contents first, and each is
accepted exactly if it names a part of that text (`Span.Names`).

A request that is refused says which span it was and how long the text is, and it leaves no trace
(`Document.Refuses`); one that is accepted adds a fragment behind the others and answers its index
(`Document.Adds`). To inject all of a literal never fails in the second step, because what was cut out of
the document is as long as the contents are (`Document.injections_validate`). -/

namespace Unescape

/-! ## Making a fragment -/

namespace Fragment

variable {g : Grammar} {literal : Text} {range : Span}

/-- A range that does not name a part of the literal makes no fragment, and nothing is reported. -/
theorem new_of_not_names (h : ¬ range.Names literal) (hostOffset : Nat) :
    Fragment.new hostOffset literal range g = ⟨.error (.invalidRange range (Text.units literal)), []⟩ := by
  have hslice : Text.slice? (Mapper.new literal g).host range = none := by
    rw [Option.eq_none_iff_forall_ne_some]
    intro part hpart
    exact h (Span.names_iff_slice?.2 ⟨part, hpart⟩)
  rw [Fragment.new, Mapper.run_decodeChecked_of_none hslice]
  rfl

/-- A range that names a part makes a fragment of it, at the place of the literal. -/
theorem exists_new_eq_ok (h : range.Names literal) (hostOffset : Nat) :
    ∃ f, (Fragment.new hostOffset literal range g).value = .ok f ∧
      f.hostSpan = range.shift hostOffset := by
  obtain ⟨part, hpart⟩ := Span.names_iff_slice?.1 h
  obtain ⟨mapper, -, hvalue⟩ := value_new hostOffset literal range g
  rw [hpart] at hvalue
  exact ⟨_, hvalue, rfl⟩

end Fragment

namespace Document

variable {d : Document} {x : DocumentM (Except Error Nat)} {contents range : Span} {literal : Text}

/-! ## How a request can end -/

/-- The request is answered with an index. -/
def Accepts (d : Document) (x : DocumentM (Except Error Nat)) : Prop :=
  ∃ index, (x.run d).value.1 = .ok index

/-- The request is refused with an error. The document stays as it is, and nothing is reported. -/
def Refuses (d : Document) (x : DocumentM (Except Error Nat)) (e : Error) : Prop :=
  x.run d = ⟨(.error e, d), []⟩

/-- The request puts a fragment behind those of the document, changes nothing else, and answers the index
    of the fragment. -/
def Adds (d : Document) (x : DocumentM (Except Error Nat)) (f : Fragment) : Prop :=
  (x.run d).value = (.ok d.fragments.length, { d with fragments := d.fragments ++ [f] })

theorem Adds.accepts {f : Fragment} (h : Adds d x f) : Accepts d x :=
  ⟨_, congrArg Prod.fst h⟩

theorem Refuses.not_accepts {e : Error} (h : Refuses d x e) : ¬ Accepts d x := by
  rintro ⟨index, hindex⟩
  rw [h] at hindex
  exact nomatch hindex

/-! ## The two looks -/

/-- Contents that do not name a part of the document are refused, whatever the range. -/
theorem refuses_of_contents (h : ¬ contents.Names d.lineIndex.source) (range : Span) (g : Grammar) :
    Refuses d (injectRange contents range g) (.invalidRange contents d.lineIndex.length) := by
  have hslice : d.lineIndex.slice? contents = none := by
    rw [Option.eq_none_iff_forall_ne_some]
    intro literal hliteral
    exact h (Span.names_iff_slice?.2 ⟨literal, hliteral⟩)
  rw [Refuses, injectRange, StateT.run_bind, StateT.run_get, pure_bind, hslice]
  rfl

/-- A range that does not name a part of the literal is refused. -/
theorem refuses_of_range (hliteral : Text.slice? d.lineIndex.source contents = some literal)
    (h : ¬ range.Names literal) (g : Grammar) :
    Refuses d (injectRange contents range g) (.invalidRange range (Text.units literal)) := by
  have hslice : d.lineIndex.slice? contents = some literal := hliteral
  rw [Refuses, injectRange, StateT.run_bind, StateT.run_get, pure_bind, hslice]
  dsimp only
  rw [Fragment.new_of_not_names h]
  rfl

/-- A range that names a part of the literal is added. -/
theorem exists_adds (hliteral : Text.slice? d.lineIndex.source contents = some literal)
    (h : range.Names literal) (g : Grammar) :
    ∃ f, Adds d (injectRange contents range g) f ∧ f.hostSpan = range.shift contents.start := by
  obtain ⟨f, hnew, hspan⟩ := Fragment.exists_new_eq_ok (g := g) h contents.start
  have hslice : d.lineIndex.slice? contents = some literal := hliteral
  refine ⟨f, ?_, hspan⟩
  rw [Adds, value_injectRange, hslice]
  dsimp only
  rw [hnew]

/-- A part of a literal is accepted if both looks succeed. -/
theorem accepts_injectRange_iff (g : Grammar) :
    Accepts d (injectRange contents range g) ↔
      ∃ literal, Text.slice? d.lineIndex.source contents = some literal ∧ range.Names literal := by
  constructor
  · intro haccepts
    have hcontents : contents.Names d.lineIndex.source := by
      by_contra h
      exact (refuses_of_contents h range g).not_accepts haccepts
    obtain ⟨literal, hliteral⟩ := Span.names_iff_slice?.1 hcontents
    refine ⟨literal, hliteral, ?_⟩
    by_contra h
    exact (refuses_of_range hliteral h g).not_accepts haccepts
  · rintro ⟨literal, hliteral, h⟩
    obtain ⟨f, hadds, -⟩ := exists_adds hliteral h g
    exact hadds.accepts

/-- To inject a literal is to inject the range of all its units. -/
theorem inject_eq (hliteral : Text.slice? d.lineIndex.source contents = some literal) (g : Grammar) :
    inject contents g = injectRange contents ⟨0, Text.units literal⟩ g := by
  obtain ⟨p, q, -, -, hstop⟩ := Text.exists_of_slice?_eq_some hliteral
  rw [inject, hstop, Nat.add_sub_cancel_left]

/-- All of a literal is accepted if its contents name a part of the document: nothing is left that the
    second look could refuse. -/
theorem exists_adds_inject (h : contents.Names d.lineIndex.source) (g : Grammar) :
    ∃ f, Adds d (inject contents g) f ∧ f.hostSpan = contents := by
  obtain ⟨literal, hliteral⟩ := Span.names_iff_slice?.1 h
  obtain ⟨f, hadds, hspan⟩ := exists_adds hliteral (Span.names_whole literal) g
  rw [← inject_eq hliteral] at hadds
  refine ⟨f, hadds, hspan.trans ?_⟩
  obtain ⟨p, q, -, -, hstop⟩ := Text.exists_of_slice?_eq_some hliteral
  rw [Span.shift, Nat.zero_add, Nat.add_comm, ← hstop]

theorem accepts_inject_iff (g : Grammar) :
    Accepts d (inject contents g) ↔ contents.Names d.lineIndex.source := by
  constructor
  · intro haccepts
    by_contra h
    exact (refuses_of_contents h _ g).not_accepts haccepts
  · intro h
    obtain ⟨f, hadds, -⟩ := exists_adds_inject h g
    exact hadds.accepts

/-- A literal is injected exactly if its contents name a part of the document, and a part of it exactly if
    besides the range names a part of the literal. Bad contents are refused with their ends and the
    length of the document, a bad range of good contents with its ends and the length of the literal,
    and nothing has changed then. What is injected comes behind all other fragments, which stay as they
    are, and its index is their number. -/
theorem injections_validate (d : Document) (contents range : Span) (g : Grammar) :
    (Accepts d (inject contents g) ↔ contents.Names d.lineIndex.source) ∧
    (Accepts d (injectRange contents range g) ↔
      contents.Names d.lineIndex.source ∧
        ∀ literal, Text.slice? d.lineIndex.source contents = some literal → range.Names literal) ∧
    (¬ contents.Names d.lineIndex.source →
      Refuses d (inject contents g) (.invalidRange contents d.lineIndex.length) ∧
      Refuses d (injectRange contents range g) (.invalidRange contents d.lineIndex.length)) ∧
    (∀ literal, Text.slice? d.lineIndex.source contents = some literal → ¬ range.Names literal →
      Refuses d (injectRange contents range g) (.invalidRange range (Text.units literal))) ∧
    (Accepts d (inject contents g) →
      ∃ f, Adds d (inject contents g) f ∧ f.hostSpan = contents) ∧
    (Accepts d (injectRange contents range g) →
      ∃ f, Adds d (injectRange contents range g) f ∧ f.hostSpan = range.shift contents.start) := by
  refine ⟨accepts_inject_iff g, ?_, ?_, ?_, ?_, ?_⟩
  · rw [accepts_injectRange_iff]
    constructor
    · rintro ⟨literal, hliteral, h⟩
      refine ⟨Span.names_iff_slice?.2 ⟨literal, hliteral⟩, ?_⟩
      intro literal' hliteral'
      obtain rfl := Option.some.inj (hliteral.symm.trans hliteral')
      exact h
    · rintro ⟨hcontents, h⟩
      obtain ⟨literal, hliteral⟩ := Span.names_iff_slice?.1 hcontents
      exact ⟨literal, hliteral, h literal hliteral⟩
  · intro h
    exact ⟨refuses_of_contents h _ g, refuses_of_contents h _ g⟩
  · intro literal hliteral h
    exact refuses_of_range hliteral h g
  · intro haccepts
    exact exists_adds_inject ((accepts_inject_iff g).1 haccepts) g
  · intro haccepts
    obtain ⟨literal, hliteral, h⟩ := (accepts_injectRange_iff g).1 haccepts
    exact exists_adds hliteral h g

/-- Contents that end between the halves of a character, a range of good contents that ends there, and a
    range of them that begins and ends beside the character. -/
theorem injections_validate_inside_char :
    (¬ (⟨1, 3⟩ : Span).Names "'a😀'".toList ∧
      Refuses (Document.new "'a😀'".toList 0) (inject ⟨1, 3⟩ Grammar.java) (.invalidRange ⟨1, 3⟩ 5)) ∧
    (Text.slice? "'a😀'".toList ⟨1, 4⟩ = some "a😀".toList ∧ ¬ (⟨0, 2⟩ : Span).Names "a😀".toList ∧
      Refuses (Document.new "'a😀'".toList 0) (injectRange ⟨1, 4⟩ ⟨0, 2⟩ Grammar.java)
        (.invalidRange ⟨0, 2⟩ 3)) ∧
    (Accepts (Document.new "'a😀'".toList 0) (injectRange ⟨1, 4⟩ ⟨1, 3⟩ Grammar.java) ∧
      ∃ f, Adds (Document.new "'a😀'".toList 0) (injectRange ⟨1, 4⟩ ⟨1, 3⟩ Grammar.java) f ∧
        f.hostSpan = ⟨2, 4⟩) := by
  have hcontents : ¬ (⟨1, 3⟩ : Span).Names "'a😀'".toList := by
    intro h
    exact h.not_inside_stop ⟨"'a".toList, '😀', "'".toList, by decide, by decide, by decide⟩
  have hliteral : Text.slice? "'a😀'".toList ⟨1, 4⟩ = some "a😀".toList := by decide
  have hrange : ¬ (⟨0, 2⟩ : Span).Names "a😀".toList := by
    intro h
    exact h.not_inside_stop ⟨"a".toList, '😀', [], by decide, by decide, by decide⟩
  have haccepts : Accepts (Document.new "'a😀'".toList 0) (injectRange ⟨1, 4⟩ ⟨1, 3⟩ Grammar.java) :=
    (accepts_injectRange_iff _).2
      ⟨_, hliteral, Span.names_iff_slice?.2 ⟨"😀".toList, by decide⟩⟩
  obtain ⟨-, -, hrefuses, -⟩ :=
    injections_validate (Document.new "'a😀'".toList 0) ⟨1, 3⟩ ⟨0, 0⟩ Grammar.java
  obtain ⟨-, -, -, hrefuses', -⟩ :=
    injections_validate (Document.new "'a😀'".toList 0) ⟨1, 4⟩ ⟨0, 2⟩ Grammar.java
  obtain ⟨-, -, -, -, -, hadds⟩ :=
    injections_validate (Document.new "'a😀'".toList 0) ⟨1, 4⟩ ⟨1, 3⟩ Grammar.java
  exact ⟨⟨hcontents, (hrefuses hcontents).1⟩, ⟨hliteral, hrange, hrefuses' _ hliteral hrange⟩,
    haccepts, hadds haccepts⟩

end Document

end Unescape
