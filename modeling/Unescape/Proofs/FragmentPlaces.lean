import Unescape.Proofs.FragmentAnswers

set_option autoImplicit false

/-! # Fragments stand where their literals do

A fragment holds a copy of its literal, an offset of the document, a range, a decoded text and a status, and
nothing but the way it was made relates these. `Fragment.Placed` says how they are related: the literal
is the part of the document at that offset, and the decoded text and the status are those of a decode of
the range. Decoding a range of a literal of the document makes such a fragment, and no request changes any
of this, so it holds of every fragment after every run of requests (`Document.placed_after`).

From this follows where the offsets are that a fragment reports: a malformed escape of the range lies in
the range, and mapping never leaves it (`Document.fragments_after`). -/

namespace Unescape

/-- The span does not leave the other one, and it is not reversed. -/
def Span.IsWithin (s t : Span) : Prop := t.start ≤ s.start ∧ s.start ≤ s.stop ∧ s.stop ≤ t.stop

namespace Text

variable {t u m : Text} {s : Span}

theorem isWithin_of_slice? (h : slice? t s = some m) : s.IsWithin ⟨0, units t⟩ := by
  obtain ⟨p, q, rfl, hstart, hstop⟩ := exists_of_slice?_eq_some h
  refine ⟨Nat.zero_le _, ?_, ?_⟩
  · rw [hstop]
    exact Nat.le_add_right _ _
  · show s.stop ≤ units (p ++ (m ++ q))
    rw [hstop, units_append, units_append]
    omega

/-- A slice of a slice is one of the text, moved to where the outer one starts. -/
theorem slice?_shift {outer : Span} (hu : slice? t outer = some u) (hm : slice? u s = some m) :
    slice? t (s.shift outer.start) = some m := by
  obtain ⟨p, q, rfl, houter, -⟩ := exists_of_slice?_eq_some hu
  obtain ⟨p', q', rfl, hstart, hstop⟩ := exists_of_slice?_eq_some hm
  refine (slice?_eq_some_iff _ _ _).2 ⟨?_, p ++ p', q' ++ q, by simp, ?_, ?_⟩
  · show s.start + outer.start ≤ s.stop + outer.start
    omega
  · rw [units_append, houter, hstart, Span.start_shift, Nat.add_comm]
  · simp only [Span.start_shift, Span.stop_shift]
    omega

end Text

/-! ## Where a scan stops -/

section Fault

variable {g : Grammar} {t : Text} {f : Fault}

/-- A fault is met at the front of what is left. -/
theorem exists_read_of_fault_eq_some (h : (scan g t).fault = some f) :
    ∃ c r, (scan g t).rest = c :: r ∧ Token.read g c r = .error f := by
  fun_induction scan g t with
  | case1 => simp at h
  | case2 c r f' herror =>
    obtain rfl : f' = f := Option.some.inj h
    exact ⟨c, r, rfl, herror⟩
  | case3 c r tok rest hread hlen ih => exact ih h

/-- Behind its tokens a text goes on with the malformed escape, which opens with a backslash. -/
theorem exists_eq_append_of_fault (h : (scan g t).fault = some f) :
    ∃ s q, f.lexeme = backslash :: s ∧
      t = Token.textOf (scan g t).tokens ++ (backslash :: s ++ q) := by
  obtain ⟨c, r, hrest, hread⟩ := exists_read_of_fault_eq_some h
  obtain ⟨rfl, s, q, hlexeme, rfl⟩ := Token.lexeme_prefix_of_read hread
  refine ⟨s, q, hlexeme, ?_⟩
  rw [List.cons_append, ← hrest, textOf_append_rest_scan]

/-- The malformed escape of a status is that of the fault. -/
theorem exists_fault_of_stopped {start : Nat} {s : Scan} {e : Malformed} (h : s.status start = .stopped e) :
    ∃ f, s.fault = some f ∧ e.span = ⟨start + s.consumed, start + s.consumed + Text.units f.lexeme⟩ ∧
      e.kind = f.kind := by
  unfold Scan.status at h
  split at h
  · simp at h
  · rename_i f hfault
    obtain rfl := Status.stopped.inj h
    exact ⟨f, hfault, rfl, rfl⟩

/-- A text at whose malformed escape decoding stopped, and where in it the escape is. -/
theorem exists_eq_append_of_stopped {start : Nat} {e : Malformed}
    (h : (scan g t).status start = .stopped e) :
    ∃ s q, t = Token.textOf (scan g t).tokens ++ (backslash :: s ++ q) ∧
      e.span = ⟨start + (scan g t).consumed, start + (scan g t).consumed + Text.units (backslash :: s)⟩ := by
  obtain ⟨f, hfault, hspan, -⟩ := exists_fault_of_stopped h
  obtain ⟨s, q, hlexeme, htext⟩ := exists_eq_append_of_fault hfault
  exact ⟨s, q, htext, hlexeme ▸ hspan⟩

end Fault

/-- An offset that is brought into a range is in it. -/
theorem Mapper.ite_max_mem {range : Span} (hle : range.start ≤ range.stop) (found : Nat) :
    range.start ≤ (if found ≤ range.stop then max found range.start else range.stop) ∧
      (if found ≤ range.stop then max found range.start else range.stop) ≤ range.stop := by
  split
  · exact ⟨Nat.le_max_right _ _, Nat.max_le.2 ⟨‹_›, hle⟩⟩
  · exact ⟨hle, Nat.le_refl _⟩

/-- Mapping to the host never leaves the range. -/
theorem Mapper.toHostFresh_mem (g : Grammar) (host : Text) (i : Nat) {range : Span}
    (hle : range.start ≤ range.stop) :
    range.start ≤ toHostFresh g host i range ∧ toHostFresh g host i range ≤ range.stop := by
  unfold toHostFresh
  cases lookupFresh g host i range with
  | none => exact ⟨hle, Nat.le_refl _⟩
  | some found => exact ite_max_mem hle found

namespace Fragment

variable {source : Text} {f : Fragment}

/-! ## What a fragment is made of -/

/-- The literal of a fragment is the part of the text that stands at the offset of the fragment, the
    range is one of the literal, and the decoded text and the status are what the range decodes to. -/
structure Placed (source : Text) (f : Fragment) : Prop where
  literal_eq : Text.slice? source ⟨f.hostOffset, f.hostOffset + f.mapper.hostLength⟩ = some f.mapper.host
  decode_eq : ∃ part status, Text.slice? f.mapper.host f.range = some part ∧
    decode f.mapper.grammar part (Output.plain #[]) = (⟨f.decoded.toArray, none⟩, status) ∧
    f.status = status.shift f.range.start

/-- Decoding a range of a literal of the text makes a fragment that stands where the literal does. -/
theorem placed_of_new {contents range : Span} {g : Grammar} {literal : Text}
    (hliteral : Text.slice? source contents = some literal)
    (h : (Fragment.new contents.start literal range g).value = .ok f) : Placed source f := by
  obtain ⟨mapper, part, ⟨rfl, rfl, -, -⟩, hpart, rfl⟩ := exists_of_new h
  have hcontents : (⟨contents.start, contents.start + mapper.hostLength⟩ : Span) = contents := by
    obtain ⟨-, -, -, -, hstop⟩ := Text.exists_of_slice?_eq_some hliteral
    rw [Mapper.hostLength, ← hstop]
  refine ⟨?_, part, _, hpart, ?_, rfl⟩
  · rw [hcontents]
    exact hliteral
  · rw [decode_plain_eq]

/-- A request changes nothing of a fragment but its mapper. -/
theorem exists_perform_eq (f : Fragment) (q : Request) : ∃ m, q.perform f = { f with mapper := m } := by
  cases q with
  | toHost offset => exact ⟨_, rfl⟩
  | spanToHost span => exact ⟨_, rfl⟩
  | toDecoded offset =>
    show ∃ m, ((hostToDecoded? offset).run f).value.2 = _
    unfold hostToDecoded?
    simp only [StateT.run_bind, StateT.run_get, Logged.value_bind, Logged.value_pure]
    cases f.contains offset with
    | false => exact ⟨f.mapper, rfl⟩
    | true => exact ⟨_, rfl⟩

/-- What a request changes of the mapper are its caches. -/
theorem Serves.exists_perform_eq {g : Grammar} {literal : Text} {range : Span}
    (hf : Serves g literal range f) (q : Request) :
    ∃ m, q.perform f = { f with mapper := m } ∧ m.host = f.mapper.host ∧
      m.grammar = f.mapper.grammar := by
  have hserves := (hf.perform q).mapper
  obtain ⟨m, hm⟩ := Fragment.exists_perform_eq f q
  rw [hm] at hserves
  exact ⟨m, hm, hserves.host_eq.trans hf.mapper.host_eq.symm,
    hserves.grammar_eq.trans hf.mapper.grammar_eq.symm⟩

theorem Placed.perform {g : Grammar} {literal : Text} {range : Span} (hf : Serves g literal range f)
    (h : Placed source f) (q : Request) : Placed source (q.perform f) := by
  obtain ⟨m, hm, hhost, hgrammar⟩ := hf.exists_perform_eq q
  obtain ⟨hliteral, hdecode⟩ := h
  rw [hm]
  unfold Mapper.hostLength at hliteral
  refine ⟨?_, ?_⟩
  · unfold Mapper.hostLength
    rwa [hhost]
  · rwa [hhost, hgrammar]

/-! ## Where the offsets of a fragment are -/

/-- In terms of the scan of its range, which is a part of the document: what a fragment decoded, and
    where that ended. -/
theorem Placed.exists_scan (h : Placed source f) :
    ∃ part, Text.slice? f.mapper.host f.range = some part ∧
      Text.slice? source f.hostSpan = some part ∧
      f.decoded = Token.charsOf (scan f.mapper.grammar part).tokens ∧
      f.status = (scan f.mapper.grammar part).status f.range.start := by
  obtain ⟨part, status, hpart, hdecode, hstatus⟩ := h.decode_eq
  rw [decode_plain_eq] at hdecode
  obtain ⟨hchars, rfl⟩ := Prod.mk.inj hdecode
  refine ⟨part, hpart, Text.slice?_shift h.literal_eq hpart, ?_, ?_⟩
  · exact (congrArg (fun out => out.chars.toList) hchars).symm
  · rw [hstatus, ← Scan.status_add, Nat.zero_add]

/-- The range of a fragment is a part of the document. -/
theorem Placed.isWithin_hostSpan (h : Placed source f) :
    f.hostSpan.IsWithin ⟨0, Text.units source⟩ := by
  obtain ⟨part, -, hpart, -⟩ := h.exists_scan
  exact Text.isWithin_of_slice? hpart

/-- Where decoding stopped, the range consists of the tokens that were decoded, the malformed escape, and
    what stands behind it. -/
theorem Placed.exists_of_stopped (h : Placed source f) {e : Malformed} (hstatus : f.status = .stopped e) :
    ∃ ts s q, Text.slice? source f.hostSpan = some (Token.textOf ts ++ (backslash :: s ++ q)) ∧
      scan f.mapper.grammar (Token.textOf ts) = ⟨ts, [], none⟩ ∧ f.decoded = Token.charsOf ts ∧
      e.span.shift f.hostOffset = ⟨f.hostSpan.start + Text.units (Token.textOf ts),
        f.hostSpan.start + Text.units (Token.textOf ts) + Text.units (backslash :: s)⟩ := by
  obtain ⟨part, -, hpart, hdecoded, hstatus'⟩ := h.exists_scan
  obtain ⟨s, q, hpart_eq, hspan⟩ := exists_eq_append_of_stopped (hstatus'.symm.trans hstatus)
  refine ⟨(scan f.mapper.grammar part).tokens, s, q, by rw [← hpart_eq, hpart],
    (fronts_tokens _ _).scan_textOf, hdecoded, ?_⟩
  rw [hspan]
  simp only [Span.shift, hostSpan, Scan.consumed, Span.mk.injEq]
  omega

/-- The malformed escape that ended the decode lies in the range. -/
theorem Placed.isWithin_malformedSpan (h : Placed source f) {span : Span}
    (hspan : f.malformedSpan? = some span) : span.IsWithin f.hostSpan := by
  obtain ⟨e, he, rfl⟩ := Option.map_eq_some_iff.1 hspan
  have hstatus : f.status = .stopped e := by
    cases hf : f.status with
    | complete => simp [hf, Status.malformed?] at he
    | stopped e' =>
      rw [hf] at he
      exact congrArg Status.stopped (Option.some.inj he)
  obtain ⟨ts, s, q, hpart, -, -, hshift⟩ := h.exists_of_stopped hstatus
  obtain ⟨-, -, -, -, hstop⟩ := Text.exists_of_slice?_eq_some hpart
  rw [hshift]
  refine ⟨Nat.le_add_right _ _, Nat.le_add_right _ _, ?_⟩
  rw [hstop, Text.units_append, Text.units_append, Nat.add_assoc]
  exact Nat.add_le_add_left (Nat.add_le_add_left (Nat.le_add_right _ _) _) _

end Fragment

namespace Document

/-- Every fragment of a document stands where its literal does. -/
theorem Reachable.placed {d : Document} (h : Reachable d) :
    ∀ f ∈ d.fragments, Fragment.Placed d.lineIndex.source f := by
  induction h with
  | new source version => exact fun _ hf => absurd hf List.not_mem_nil
  | @perform d q hd ih =>
    intro f hf
    have hfollows := follows_perform d q
    rw [hfollows.lineIndex_eq]
    cases hfollows.fragments f hf with
    | kept hmem => exact ih f hmem
    | asked q hmem =>
      obtain ⟨g, literal, range, hreachable⟩ := hd.sound.fragments _ hmem
      exact (ih _ hmem).perform hreachable.serves q
    | injected hslice hnew => exact Fragment.placed_of_new hslice hnew

/-- So are those of the document after a sequence of requests, in the text that it was made of. -/
theorem placed_after (source : Text) (version : Int) (requests : List Request) :
    ∀ f ∈ (after source version requests).fragments, Fragment.Placed source f := by
  have h := (reachable_after source version requests).placed
  rwa [lineIndex_after] at h

/-- After any requests, every fragment holds the literal that stands at its offset and what its range
    decodes to; and the offsets that it reports are those of its range, which is a part of the
    document. -/
theorem fragments_after (source : Text) (version : Int) (requests : List Request) :
    ∀ f ∈ (after source version requests).fragments,
      Text.slice? source ⟨f.hostOffset, f.hostOffset + f.mapper.hostLength⟩ = some f.mapper.host ∧
      (∃ part status, Text.slice? f.mapper.host f.range = some part ∧
        decode f.mapper.grammar part (Output.plain #[]) = (⟨f.decoded.toArray, none⟩, status) ∧
        f.status = status.shift f.range.start) ∧
      f.hostSpan.IsWithin ⟨0, Text.units source⟩ ∧
      (∀ span, f.malformedSpan? = some span → span.IsWithin f.hostSpan) ∧
      ∀ offset, f.hostSpan.start ≤ ((Fragment.toHost offset).run f).value.1 ∧
        ((Fragment.toHost offset).run f).value.1 ≤ f.hostSpan.stop := by
  intro f hf
  have hplaced := placed_after source version requests f hf
  refine ⟨hplaced.literal_eq, hplaced.decode_eq, hplaced.isWithin_hostSpan,
    fun span hspan => hplaced.isWithin_malformedSpan hspan, fun offset => ?_⟩
  obtain ⟨g, literal, range, hreachable⟩ :=
    (reachable_after source version requests).sound.fragments f hf
  have hserves := hreachable.serves
  have hforward : f.range.start ≤ f.range.stop := by
    obtain ⟨part, hpart, -⟩ := hplaced.exists_scan
    exact ((Text.slice?_eq_some_iff _ _ _).1 hpart).1
  rw [← hserves.range_eq] at hserves
  obtain ⟨hle, hle'⟩ := Mapper.toHostFresh_mem g literal offset hforward
  rw [Fragment.value_toHost hserves, Nat.add_comm]
  exact ⟨Nat.add_le_add_right hle _, Nat.add_le_add_right hle' _⟩

/-- A fragment of a part of the second literal, with a malformed escape in it, after the fragment in
    front of it was dropped, it was asked for a range of positions, and a request was refused. -/
theorem fragments_after_removal :
    ∃ f ∈ (after "'\\101' 'a\\uD83D\\uDE00\\q'".toList 0 [.inject ⟨1, 5⟩ Grammar.java,
        .injectRange ⟨8, 23⟩ ⟨1, 15⟩ Grammar.java, .remove 0, .decodedSpanToRange 0 ⟨0, 2⟩,
        .injectRange ⟨8, 23⟩ ⟨2, 40⟩ Grammar.java]).fragments,
      f.decoded = "😀".toList ∧ f.malformedSpan? = some ⟨21, 23⟩ ∧
      Text.slice? "'\\101' 'a\\uD83D\\uDE00\\q'".toList
        ⟨f.hostOffset, f.hostOffset + f.mapper.hostLength⟩ = some f.mapper.host ∧
      (∃ part status, Text.slice? f.mapper.host f.range = some part ∧
        decode f.mapper.grammar part (Output.plain #[]) = (⟨f.decoded.toArray, none⟩, status) ∧
        f.status = status.shift f.range.start) ∧
      f.hostSpan.IsWithin ⟨0, Text.units "'\\101' 'a\\uD83D\\uDE00\\q'".toList⟩ ∧
      (∀ span, f.malformedSpan? = some span → span.IsWithin f.hostSpan) ∧
      ∀ offset, f.hostSpan.start ≤ ((Fragment.toHost offset).run f).value.1 ∧
        ((Fragment.toHost offset).run f).value.1 ≤ f.hostSpan.stop := by
  obtain ⟨f, hf, hdecoded, hspan⟩ : ∃ f ∈ (after "'\\101' 'a\\uD83D\\uDE00\\q'".toList 0
      [.inject ⟨1, 5⟩ Grammar.java, .injectRange ⟨8, 23⟩ ⟨1, 15⟩ Grammar.java, .remove 0,
        .decodedSpanToRange 0 ⟨0, 2⟩, .injectRange ⟨8, 23⟩ ⟨2, 40⟩ Grammar.java]).fragments,
      f.decoded = "😀".toList ∧ f.malformedSpan? = some ⟨21, 23⟩ := by decide +kernel
  exact ⟨f, hf, hdecoded, hspan, fragments_after _ _ _ f hf⟩

end Document

end Unescape
