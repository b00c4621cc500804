import Unescape.Document
import Unescape.Proofs.RangeLookup

set_option autoImplicit false

/-! # What fragments and documents answer

A fragment holds a mapper of its literal and asks it only about the range that it was made for. So its
answers are those of the mapper, moved to where the literal stands in the document
(`Fragment.value_spanToHost`, `Fragment.value_hostToDecoded?`), whatever the fragment was asked before
(`Fragment.Reachable.serves`).

A document adds fragments, drops them and hands requests on to them. Every fragment in it is one that was
made for a range that names a part of its literal (`Document.Reachable.sound`). -/

namespace Unescape

/-! ## Fragments -/

namespace Fragment

variable {g : Grammar} {literal : Text} {range : Span} {f : Fragment}

/-- A fragment of a range of a literal: the range names a part of the literal, the decoded text is
    that of the part, and the caches of the mapper hold what they stand for. -/
structure Serves (g : Grammar) (literal : Text) (range : Span) (f : Fragment) : Prop where
  mapper : Mapper.Serves g literal f.mapper
  range_eq : f.range = range
  decoded_eq : ∃ part, Text.slice? literal range = some part ∧
    f.decoded = Token.charsOf (scan g part).tokens

/-- What a fragment can be asked for. -/
inductive Request where
  | toHost (offset : Nat)
  | spanToHost (span : Span)
  | toDecoded (offset : Nat)
deriving DecidableEq, Repr

/-- The fragment after a request. -/
def Request.perform (f : Fragment) : Request → Fragment
  | toHost offset => ((Fragment.toHost offset).run f).value.2
  | spanToHost span => ((Fragment.spanToHost span).run f).value.2
  | toDecoded offset => ((hostToDecoded? offset).run f).value.2

/-- The fragments of a range of a literal: those that decoding the range makes, and those to which
    requests lead from them. -/
inductive Reachable (g : Grammar) (literal : Text) (range : Span) : Fragment → Prop where
  | new {hostOffset : Nat} {f : Fragment} :
    (Fragment.new hostOffset literal range g).value = .ok f → Reachable g literal range f
  | perform {f : Fragment} (q : Request) :
    Reachable g literal range f → Reachable g literal range (q.perform f)

/-- What decoding a range of a literal makes: a fragment exactly if the range names a part of the literal,
    and then one of that part, at the given offset, with the text that the part decodes to and the end of
    the decode, counted in the literal. -/
theorem value_new (hostOffset : Nat) (literal : Text) (range : Span) (g : Grammar) :
    ∃ mapper, Mapper.Serves g literal mapper ∧
      (Fragment.new hostOffset literal range g).value
        = match Text.slice? literal range with
          | none => .error (.invalidRange range (Text.units literal))
          | some part => .ok ⟨hostOffset, range, mapper, (decode g part (Output.plain #[])).1.chars.toList,
              (decode g part (Output.plain #[])).2.shift range.start⟩ := by
  obtain ⟨hanswer, hserves⟩ :=
    Mapper.answers_decodeChecked range #[] _ (Mapper.serves_new g literal)
  refine ⟨_, hserves, ?_⟩
  unfold Fragment.new
  simp only [Logged.value_bind, hanswer, Mapper.decodeFresh]
  cases Text.slice? literal range <;> rfl

theorem exists_of_new {hostOffset : Nat}
    (h : (Fragment.new hostOffset literal range g).value = .ok f) :
    ∃ mapper part, Mapper.Serves g literal mapper ∧ Text.slice? literal range = some part ∧
      f = ⟨hostOffset, range, mapper, (decode g part (Output.plain #[])).1.chars.toList,
        (decode g part (Output.plain #[])).2.shift range.start⟩ := by
  obtain ⟨mapper, hserves, hvalue⟩ := value_new hostOffset literal range g
  rw [h] at hvalue
  cases hpart : Text.slice? literal range with
  | none => simp [hpart] at hvalue
  | some part =>
    rw [hpart] at hvalue
    exact ⟨mapper, part, hserves, rfl, Except.ok.inj hvalue⟩

theorem serves_of_new {hostOffset : Nat}
    (h : (Fragment.new hostOffset literal range g).value = .ok f) : Serves g literal range f := by
  obtain ⟨mapper, part, hserves, hpart, rfl⟩ := exists_of_new h
  exact ⟨hserves, rfl, part, hpart, by rw [decode_plain_eq]⟩

/-- A request goes to the mapper and changes nothing else. -/
theorem Serves.setMapper (hf : Serves g literal range f) {m : Mapper}
    (hm : Mapper.Serves g literal m) : Serves g literal range { f with mapper := m } :=
  ⟨hm, hf.range_eq, hf.decoded_eq⟩

theorem value_toHost (hf : Serves g literal range f) (offset : Nat) :
    ((toHost offset).run f).value.1 = f.hostOffset + Mapper.toHostFresh g literal offset range := by
  rw [← (Mapper.answers_mapToHost offset range f.mapper hf.mapper).1, ← hf.range_eq]
  rfl

theorem Serves.toHost (hf : Serves g literal range f) (offset : Nat) :
    Serves g literal range ((Fragment.toHost offset).run f).value.2 :=
  hf.setMapper (Mapper.answers_mapToHost offset f.range f.mapper hf.mapper).2

/-- The span that a fragment answers is that of its mapper, counted from the start of the document. -/
theorem value_spanToHost (hf : Serves g literal range f) (span : Span) :
    ((spanToHost span).run f).value.1
      = ⟨f.hostOffset + Mapper.toHostFresh g literal span.start range,
          f.hostOffset + Mapper.toHostFresh g literal span.stop range⟩ := by
  have hstart := value_toHost hf span.start
  have hstop := value_toHost (hf.toHost span.start) span.stop
  unfold spanToHost
  simp only [StateT.run_bind, StateT.run_pure, Logged.value_bind, Logged.value_pure, hstart, hstop]
  rfl

theorem Serves.spanToHost (hf : Serves g literal range f) (span : Span) :
    Serves g literal range ((Fragment.spanToHost span).run f).value.2 := by
  unfold Fragment.spanToHost
  simp only [StateT.run_bind, StateT.run_pure, Logged.value_bind, Logged.value_pure]
  exact (hf.toHost span.start).toHost span.stop

theorem value_hostToDecoded? (hf : Serves g literal range f) (offset : Nat) :
    ((hostToDecoded? offset).run f).value.1
      = if f.contains offset then
          some (Mapper.toDecodedFresh g literal (offset - f.hostOffset) range)
        else none := by
  have hmapper := (Mapper.answers_mapToDecoded (offset - f.hostOffset) range f.mapper hf.mapper).1
  rw [← hmapper, ← hf.range_eq]
  unfold hostToDecoded?
  simp only [StateT.run_bind, StateT.run_get, Logged.value_bind, Logged.value_pure]
  cases f.contains offset <;> rfl

theorem Serves.hostToDecoded? (hf : Serves g literal range f) (offset : Nat) :
    Serves g literal range ((Fragment.hostToDecoded? offset).run f).value.2 := by
  unfold Fragment.hostToDecoded?
  simp only [StateT.run_bind, StateT.run_get, Logged.value_bind, Logged.value_pure]
  cases f.contains offset with
  | false => exact hf
  | true =>
    exact hf.setMapper
      (Mapper.answers_mapToDecoded (offset - f.hostOffset) f.range f.mapper hf.mapper).2

theorem Serves.perform (hf : Serves g literal range f) (q : Request) :
    Serves g literal range (q.perform f) := by
  cases q with
  | toHost offset => exact hf.toHost offset
  | spanToHost span => exact hf.spanToHost span
  | toDecoded offset => exact hf.hostToDecoded? offset

/-- Whatever a fragment was asked for, it is one of its range. -/
theorem Reachable.serves (h : Reachable g literal range f) : Serves g literal range f := by
  induction h with
  | new h => exact serves_of_new h
  | perform q _ ih => exact ih.perform q

/-- The length of the decoded text is that of the text decoded for the range. -/
theorem Serves.units_decoded (hf : Serves g literal range f) {part : Text}
    (hpart : Text.slice? literal range = some part) :
    Text.units f.decoded = decodedUnits g part := by
  obtain ⟨part', hpart', hdecoded⟩ := hf.decoded_eq
  obtain rfl := Option.some.inj (hpart.symm.trans hpart')
  rw [hdecoded, Mapper.decodedUnits_eq]

end Fragment

/-! ## Documents -/

namespace Document

variable {d : Document}

/-- What can be done with a document. -/
inductive Request where
  | inject (contents : Span) (g : Grammar)
  | injectRange (contents range : Span) (g : Grammar)
  | remove (index : Nat)
  | setVersion (version : Int)
  | fragment (index : Nat) (q : Fragment.Request)
  | positionToDecoded (p : Position)
  | decodedSpanToRange (index : Nat) (span : Span)
deriving DecidableEq, Repr

/-- The document after a request, whether or not it was refused. -/
def Request.perform (d : Document) : Request → Document
  | inject contents g => ((Document.inject contents g).run d).value.2
  | injectRange contents range g => ((Document.injectRange contents range g).run d).value.2
  | remove index => d.removeFragment index
  | setVersion version => { d with version := version }
  | fragment index q => { d with fragments := d.fragments.modify index q.perform }
  | positionToDecoded p => ((positionToDecoded? p).run d).value.2
  | decodedSpanToRange index span => ((decodedSpanToRange? index span).run d).value.2

/-- The documents to which requests lead from one without fragments. -/
inductive Reachable : Document → Prop where
  | new (source : Text) (version : Int) : Reachable (Document.new source version)
  | perform {d : Document} (q : Request) : Reachable d → Reachable (q.perform d)

/-- The document after a sequence of requests. -/
def after (source : Text) (version : Int) (requests : List Request) : Document :=
  requests.foldl Request.perform (Document.new source version)

theorem Reachable.foldl (h : Reachable d) (requests : List Request) :
    Reachable (requests.foldl Request.perform d) := by
  induction requests generalizing d with
  | nil => exact h
  | cons q requests ih => exact ih (.perform q h)

theorem reachable_after (source : Text) (version : Int) (requests : List Request) :
    Reachable (after source version requests) :=
  (Reachable.new source version).foldl requests

/-! ## What a request leaves -/

/-- What can be a fragment after a request: a fragment from before, what a request to one of these leaves
    of it, and what decoding a range of a literal of the document makes. -/
inductive Successor (d : Document) : Fragment → Prop where
  | kept {f : Fragment} : f ∈ d.fragments → Successor d f
  | asked {f : Fragment} (q : Fragment.Request) : f ∈ d.fragments → Successor d (q.perform f)
  | injected {contents range : Span} {g : Grammar} {literal : Text} {f : Fragment} :
    d.lineIndex.slice? contents = some literal →
    (Fragment.new contents.start literal range g).value = .ok f → Successor d f

/-- What a request makes of a document: the text is the same, and the fragments come from what there
    was. -/
structure Follows (d d' : Document) : Prop where
  lineIndex_eq : d'.lineIndex = d.lineIndex
  fragments : ∀ f ∈ d'.fragments, Successor d f

theorem Follows.refl (d : Document) : Follows d d := ⟨rfl, fun _ hf => .kept hf⟩

/-- A report that does not use the document leaves it as it is. -/
theorem value_liftM {α : Type} (x : Logged α) (d : Document) :
    ((liftM x : DocumentM α).run d).value = (x.value, d) := rfl

theorem value_injectRange (d : Document) (contents range : Span) (g : Grammar) :
    ((injectRange contents range g).run d).value
      = match d.lineIndex.slice? contents with
        | none => (.error (.invalidRange contents d.lineIndex.length), d)
        | some literal =>
          match (Fragment.new contents.start literal range g).value with
          | .error e => (.error e, d)
          | .ok f => (.ok d.fragments.length, { d with fragments := d.fragments ++ [f] }) := by
  unfold injectRange
  simp only [StateT.run_bind, StateT.run_get, Logged.value_bind, Logged.value_pure]
  cases d.lineIndex.slice? contents with
  | none => rfl
  | some literal =>
    simp only [StateT.run_bind, Logged.value_bind, value_liftM]
    cases (Fragment.new contents.start literal range g).value <;> rfl

/-- The fragment that injecting a literal adds to a document with the given lines, unless it is
    refused. -/
def made? (ix : LineIndex) (x : Span × Grammar) : Option Fragment :=
  (ix.slice? x.1).bind fun literal =>
    (Fragment.new x.1.start literal ⟨0, x.1.stop - x.1.start⟩ x.2).value.toOption

theorem exists_of_made? {ix : LineIndex} {x : Span × Grammar} {f : Fragment} (h : made? ix x = some f) :
    ∃ literal, ix.slice? x.1 = some literal ∧
      (Fragment.new x.1.start literal ⟨0, x.1.stop - x.1.start⟩ x.2).value = .ok f := by
  obtain ⟨literal, hslice, hmade⟩ := Option.bind_eq_some_iff.1 h
  refine ⟨literal, hslice, ?_⟩
  cases hnew : (Fragment.new x.1.start literal ⟨0, x.1.stop - x.1.start⟩ x.2).value with
  | error e => simp [hnew, Except.toOption] at hmade
  | ok f' =>
    rw [hnew] at hmade
    exact congrArg Except.ok (Option.some.inj hmade)

/-- Injecting a literal is refused, or it adds a fragment behind the others. -/
theorem run_inject (d : Document) (contents : Span) (g : Grammar) :
    (made? d.lineIndex (contents, g) = none ∧
      ∃ e, ((inject contents g).run d).value = (.error e, d)) ∨
    ∃ f, made? d.lineIndex (contents, g) = some f ∧
      ((inject contents g).run d).value
        = (.ok d.fragments.length, { d with fragments := d.fragments ++ [f] }) := by
  unfold inject made?
  rw [value_injectRange]
  cases d.lineIndex.slice? contents with
  | none => exact .inl ⟨rfl, _, rfl⟩
  | some literal =>
    dsimp only [Option.bind_some]
    cases (Fragment.new contents.start literal ⟨0, contents.stop - contents.start⟩ g).value with
    | error e => exact .inl ⟨rfl, e, rfl⟩
    | ok f => exact .inr ⟨f, rfl, rfl⟩

theorem follows_injectRange (d : Document) (contents range : Span) (g : Grammar) :
    Follows d ((injectRange contents range g).run d).value.2 := by
  rw [value_injectRange]
  cases hslice : d.lineIndex.slice? contents with
  | none => exact .refl d
  | some literal =>
    dsimp only
    cases hnew : (Fragment.new contents.start literal range g).value with
    | error e => exact .refl d
    | ok f =>
      refine ⟨rfl, fun f' hf' => ?_⟩
      rcases List.mem_append.1 hf' with hf' | hf'
      · exact .kept hf'
      · obtain rfl := List.mem_singleton.1 hf'
        exact .injected hslice hnew

theorem value_withFragment {α : Type} (index : Nat) (x : FragmentM α) (d : Document) :
    ((withFragment index x).run d).value
      = match d.fragments[index]? with
        | none => (none, d)
        | some f => (some (x.run f).value.1,
            { d with fragments := d.fragments.set index (x.run f).value.2 }) := by
  unfold withFragment StateT.run
  dsimp only
  cases d.fragments[index]? <;> rfl

/-- Using one of the fragments for a request leaves what the request makes of it in its place. -/
theorem run_withFragment {α : Type} (d : Document) (index : Nat) {x : FragmentM α}
    (q : Fragment.Request) (hx : ∀ f, (x.run f).value.2 = q.perform f) :
    ((withFragment index x).run d).value.2 = Request.perform d (.fragment index q) := by
  rw [value_withFragment]
  show _ = { d with fragments := d.fragments.modify index q.perform }
  cases hf : d.fragments[index]? with
  | none => rw [List.modify_eq_self (List.getElem?_eq_none_iff.1 hf)]
  | some f =>
    have hset : d.fragments.set index (q.perform f) = d.fragments.modify index q.perform := by
      apply List.ext_getElem?
      intro i
      rw [List.getElem?_modify, List.getElem?_set]
      by_cases hi : index = i
      · obtain ⟨hlt, rfl⟩ := List.getElem?_eq_some_iff.1 hf
        simp [← hi, hlt]
      · simp [hi]
    dsimp only
    rw [hx, hset]

/-- Looking up a position uses one fragment at most. -/
theorem perform_positionToDecoded (d : Document) (p : Position) :
    Request.perform d (.positionToDecoded p) = d ∨
    ∃ index q, Request.perform d (.positionToDecoded p) = Request.perform d (.fragment index q) := by
  show ((positionToDecoded? p).run d).value.2 = d ∨
    ∃ index q, ((positionToDecoded? p).run d).value.2 = Request.perform d (.fragment index q)
  unfold positionToDecoded?
  simp only [StateT.run_bind, StateT.run_get, Logged.value_bind, Logged.value_pure]
  cases d.lineIndex.positionToOffset? p with
  | none => exact .inl rfl
  | some offset =>
    dsimp only
    cases d.fragmentAt? offset with
    | none => exact .inl rfl
    | some index =>
      have hrun := run_withFragment d index (x := Fragment.hostToDecoded? offset)
        (.toDecoded offset) fun _ => rfl
      refine .inr ⟨index, .toDecoded offset, ?_⟩
      simp only [StateT.run_bind, Logged.value_bind]
      split <;> exact hrun

theorem perform_decodedSpanToRange (d : Document) (index : Nat) (span : Span) :
    Request.perform d (.decodedSpanToRange index span)
      = Request.perform d (.fragment index (.spanToHost span)) :=
  run_withFragment d index (x := Fragment.spanToHost span) (.spanToHost span) fun _ => rfl

theorem follows_fragment (d : Document) (index : Nat) (q : Fragment.Request) :
    Follows d (Request.perform d (.fragment index q)) := by
  refine ⟨rfl, fun f' hf' => ?_⟩
  obtain ⟨i, hi⟩ : ∃ i, (d.fragments.modify index q.perform)[i]? = some f' :=
    List.mem_iff_getElem?.1 hf'
  rw [List.getElem?_modify] at hi
  obtain ⟨f, hf, rfl⟩ := Option.map_eq_some_iff.1 hi
  split
  · exact .asked q (List.mem_of_getElem? hf)
  · exact .kept (List.mem_of_getElem? hf)

/-- All that a request can do, refused ones included. -/
theorem follows_perform (d : Document) (q : Request) : Follows d (q.perform d) := by
  cases q with
  | inject contents g => exact follows_injectRange d contents _ g
  | injectRange contents range g => exact follows_injectRange d contents range g
  | remove index => exact ⟨rfl, fun _ hf => .kept (List.mem_of_mem_eraseIdx hf)⟩
  | setVersion version => exact ⟨rfl, fun _ hf => .kept hf⟩
  | fragment index q => exact follows_fragment d index q
  | positionToDecoded p =>
    rcases perform_positionToDecoded d p with hrun | ⟨index, q, hrun⟩
    · rw [hrun]
      exact .refl d
    · rw [hrun]
      exact follows_fragment d index q
  | decodedSpanToRange index span =>
    rw [perform_decodedSpanToRange]
    exact follows_fragment d index _

theorem lineIndex_foldl (d : Document) (requests : List Request) :
    (requests.foldl Request.perform d).lineIndex = d.lineIndex := by
  induction requests generalizing d with
  | nil => rfl
  | cons q requests ih => exact (ih (q.perform d)).trans (follows_perform d q).lineIndex_eq

/-- The text of a document stays the same. -/
theorem lineIndex_after (source : Text) (version : Int) (requests : List Request) :
    (after source version requests).lineIndex = LineIndex.ofText source :=
  lineIndex_foldl _ requests

/-! ## The fragments of a document -/

/-- Every fragment of the document is one of some range of some literal, and its line index is that of
    a text. -/
structure Sound (d : Document) : Prop where
  lineIndex_eq : ∃ source, d.lineIndex = LineIndex.ofText source
  fragments : ∀ f ∈ d.fragments, ∃ g literal range, Fragment.Reachable g literal range f

theorem sound_new (source : Text) (version : Int) : Sound (Document.new source version) :=
  ⟨⟨source, rfl⟩, fun _ hf => absurd hf List.not_mem_nil⟩

theorem Sound.follows {d' : Document} (hd : Sound d) (h : Follows d d') : Sound d' := by
  obtain ⟨source, hsource⟩ := hd.lineIndex_eq
  refine ⟨⟨source, h.lineIndex_eq.trans hsource⟩, fun f hf => ?_⟩
  cases h.fragments f hf with
  | kept hmem => exact hd.fragments f hmem
  | asked q hmem =>
    obtain ⟨g, literal, range, hreachable⟩ := hd.fragments _ hmem
    exact ⟨g, literal, range, .perform q hreachable⟩
  | injected _ hnew => exact ⟨_, _, _, .new hnew⟩

/-- Whatever was done with a document, its fragments are such as decoding ranges makes. -/
theorem Reachable.sound (h : Reachable d) : Sound d := by
  induction h with
  | new source version => exact sound_new source version
  | perform q _ ih => exact ih.follows (follows_perform _ q)

/-- A fragment of a document is one of the range, literal and grammar that it names. -/
theorem Sound.reachable_fragment (hd : Sound d) {index : Nat} {f : Fragment}
    (hf : d.fragments[index]? = some f) :
    Fragment.Reachable f.mapper.grammar f.mapper.host f.range f := by
  obtain ⟨g, literal, range, hreachable⟩ := hd.fragments f (List.mem_of_getElem? hf)
  have hserves := hreachable.serves
  rwa [hserves.mapper.grammar_eq, hserves.mapper.host_eq, hserves.range_eq]

/-- In a given document, what a fragment was made for can be read off. -/
theorem exists_fragment_of_map_eq {index : Nat} {g : Grammar} {literal : Text} {range : Span}
    (h : (d.fragments[index]?).map (fun f => (f.mapper.grammar, f.mapper.host, f.range))
      = some (g, literal, range)) :
    ∃ f, d.fragments[index]? = some f ∧ f.mapper.grammar = g ∧ f.mapper.host = literal ∧
      f.range = range := by
  obtain ⟨f, hf, heq⟩ := Option.map_eq_some_iff.1 h
  obtain ⟨hgrammar, heq⟩ := Prod.mk.inj heq
  exact ⟨f, hf, hgrammar, Prod.mk.inj heq⟩

/-! ## Answers of the fragments -/

theorem run_decodedSpanToRange? {index : Nat} {f : Fragment} (hf : d.fragments[index]? = some f)
    (span : Span) :
    ((decodedSpanToRange? index span).run d).value
      = (some (d.lineIndex.spanToRange ((Fragment.spanToHost span).run f).value.1),
          { d with
            fragments := d.fragments.set index ((Fragment.Request.spanToHost span).perform f) }) := by
  unfold decodedSpanToRange?
  simp only [StateT.run_bind, StateT.run_get, Logged.value_bind, Logged.value_pure,
    value_withFragment, hf]
  rfl

theorem value_decodedSpanToRange? {index : Nat} {f : Fragment} (hf : d.fragments[index]? = some f)
    (span : Span) :
    ((decodedSpanToRange? index span).run d).value.1
      = some (d.lineIndex.spanToRange ((Fragment.spanToHost span).run f).value.1) :=
  congrArg Prod.fst (run_decodedSpanToRange? hf span)

/-- The fragment at an offset is the first one to which the offset belongs. -/
theorem fragmentAt?_eq_some_iff {offset index : Nat} :
    d.fragmentAt? offset = some index ↔
      (∃ f, d.fragments[index]? = some f ∧ f.contains offset = true) ∧
      ∀ j f, j < index → d.fragments[j]? = some f → f.contains offset = false := by
  unfold fragmentAt?
  rw [List.findIdx?_eq_some_iff_getElem]
  constructor
  · rintro ⟨hlt, hcontains, hfirst⟩
    refine ⟨⟨_, List.getElem?_eq_getElem hlt, hcontains⟩, fun j f hj hf => ?_⟩
    obtain ⟨_, rfl⟩ := List.getElem?_eq_some_iff.1 hf
    exact Bool.eq_false_iff.2 (hfirst j hj)
  · rintro ⟨⟨f, hf, hcontains⟩, hfirst⟩
    obtain ⟨hlt, rfl⟩ := List.getElem?_eq_some_iff.1 hf
    refine ⟨hlt, hcontains, fun j hj => ?_⟩
    exact Bool.eq_false_iff.1 (hfirst j _ hj (List.getElem?_eq_getElem (Nat.lt_trans hj hlt)))

/-- A position is looked up in the first fragment there. -/
theorem value_positionToDecoded? (p : Position) :
    ((positionToDecoded? p).run d).value.1 =
      (d.lineIndex.positionToOffset? p).bind fun offset =>
        (d.fragmentAt? offset).bind fun index =>
          (d.fragments[index]?).bind fun f =>
            (((Fragment.hostToDecoded? offset).run f).value.1).map fun decoded => (index, decoded) := by
  unfold positionToDecoded?
  simp only [StateT.run_bind, StateT.run_get, Logged.value_bind, Logged.value_pure]
  cases d.lineIndex.positionToOffset? p with
  | none => rfl
  | some offset =>
    dsimp only
    cases hindex : d.fragmentAt? offset with
    | none => simp [hindex]
    | some index =>
      simp only [StateT.run_bind, Logged.value_bind, value_withFragment, Option.bind_some, hindex]
      cases d.fragments[index]? with
      | none => rfl
      | some f =>
        simp only [Option.bind_some]
        cases ((Fragment.hostToDecoded? offset).run f).value.1 <;> rfl

/-- An offset that a document answers for a position is one that the fragment there answers. -/
theorem exists_of_positionToDecoded? {p : Position} {index decoded : Nat}
    (h : ((positionToDecoded? p).run d).value.1 = some (index, decoded)) :
    ∃ f offset, d.fragments[index]? = some f ∧
      ((Fragment.hostToDecoded? offset).run f).value.1 = some decoded := by
  rw [value_positionToDecoded?] at h
  obtain ⟨offset, -, h⟩ := Option.bind_eq_some_iff.1 h
  obtain ⟨index', -, h⟩ := Option.bind_eq_some_iff.1 h
  obtain ⟨f, hf, h⟩ := Option.bind_eq_some_iff.1 h
  obtain ⟨decoded', hanswer, heq⟩ := Option.map_eq_some_iff.1 h
  obtain ⟨rfl, rfl⟩ := Prod.mk.inj heq
  exact ⟨f, offset, hf, hanswer⟩

end Document

end Unescape
