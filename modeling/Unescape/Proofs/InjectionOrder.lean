import Mathlib.Data.List.Basic
import Mathlib.Data.List.Pairwise
import Unescape.Diagnostic
import Unescape.Proofs.FragmentPlaces

set_option autoImplicit false

/-! # The order of injections does not matter

Asking a document fills the caches of its fragments and changes nothing else, and a fragment answers
the same with any caches. So what a document answers depends only on the list of its fragments
without caches, and this list holds what injecting made, in order (`Document.map_forget_after`).

A position is looked up in the first fragment at its offset. Where fragments are apart there is no
second one, even though the end of a fragment belongs to it, and the first one is the only one in
any order (`Document.positionToDecoded?_injection_order`). -/

namespace Unescape

/-- There is at least one unit between the spans. -/
def Span.IsApart (s t : Span) : Prop := s.stop < t.start ∨ t.stop < s.start

instance (s t : Span) : Decidable (s.IsApart t) := inferInstanceAs (Decidable (_ ∨ _))

namespace Span

theorem IsApart.symm {s t : Span} (h : s.IsApart t) : t.IsApart s := Or.symm h

/-- No offset belongs to both of two spans that are apart. -/
theorem IsApart.not_touches {s t : Span} (h : s.IsApart t) {offset : Nat}
    (hs : s.touches offset = true) : t.touches offset = false := by
  simp only [touches, Bool.and_eq_true, decide_eq_true_eq, Bool.and_eq_false_iff,
    decide_eq_false_iff_not] at hs ⊢
  rcases h with h | h <;> omega

end Span

/-! ## Fragments without their caches -/

namespace Fragment

variable {g : Grammar} {literal : Text} {range : Span} {f : Fragment}

/-- The fragment before it was asked for anything. -/
def forget (f : Fragment) : Fragment :=
  { f with mapper := Mapper.new f.mapper.host f.mapper.grammar }

/-- The decoded offset of an offset that belongs to the fragment, without a look at its caches. -/
def decodedAt? (f : Fragment) (offset : Nat) : Option Nat :=
  if f.contains offset then
    some (Mapper.toDecodedFresh f.mapper.grammar f.mapper.host (offset - f.hostOffset) f.range)
  else none

/-- Asking a fragment changes nothing but its caches. -/
theorem Serves.forget_perform (hf : Serves g literal range f) (q : Request) :
    (q.perform f).forget = f.forget := by
  obtain ⟨m, hm, hhost, hgrammar⟩ := hf.exists_perform_eq q
  rw [hm]
  simp only [forget, hhost, hgrammar]

theorem Reachable.value_hostToDecoded? (hf : Reachable f.mapper.grammar f.mapper.host f.range f)
    (offset : Nat) : ((hostToDecoded? offset).run f).value.1 = f.decodedAt? offset :=
  Fragment.value_hostToDecoded? hf.serves offset

end Fragment

namespace Document

open Fragment (forget)

variable {d d' : Document}

/-! ## Injecting and asking -/

namespace Request

/-- The literal that a request injects, and its grammar. -/
def injected? : Request → Option (Span × Grammar)
  | inject contents g => some (contents, g)
  | _ => none

/-- The request injects all of a literal, or adds and drops no fragment at all. -/
def IsPlain : Request → Prop
  | injectRange .. | remove _ => False
  | inject .. | setVersion _ | fragment .. | positionToDecoded _ | decodedSpanToRange .. => True

instance : DecidablePred IsPlain
  | injectRange .. | remove _ => isFalse id
  | inject .. | setVersion _ | fragment .. | positionToDecoded _ | decodedSpanToRange .. =>
    isTrue trivial

end Request

/-- The literals that requests inject, in their order. -/
def injections (requests : List Request) : List (Span × Grammar) :=
  requests.filterMap Request.injected?

/-- A fragment that is made stands at the span of its literal. -/
theorem key_of_made? {ix : LineIndex} {x : Span × Grammar} {f : Fragment} (h : made? ix x = some f) :
    (f.hostSpan, f.mapper.grammar) = x := by
  obtain ⟨literal, hslice, hnew⟩ := exists_of_made? h
  obtain ⟨mapper, part, hserves, -, rfl⟩ := Fragment.exists_of_new hnew
  obtain ⟨⟨start, stop⟩, g⟩ := x
  have hle : start ≤ stop := ((Text.slice?_eq_some_iff _ _ _).1 hslice).1
  show ((⟨0 + start, stop - start + start⟩ : Span), mapper.grammar) = _
  rw [hserves.grammar_eq, Nat.zero_add, Nat.sub_add_cancel hle]

theorem map_key_made? {ix : LineIndex} {xs : List (Span × Grammar)}
    (h : ∀ x ∈ xs, ∃ f, made? ix x = some f) :
    (xs.filterMap (made? ix)).map (fun f => (f.hostSpan, f.mapper.grammar)) = xs := by
  induction xs with
  | nil => rfl
  | cons x xs ih =>
    obtain ⟨⟨f, hf⟩, hrest⟩ := List.forall_mem_cons.1 h
    rw [List.filterMap_cons_some hf, List.map_cons, key_of_made? hf, ih hrest]

/-- What `inject` accepts makes a fragment. -/
theorem exists_made?_of_inject {x : Span × Grammar} {index : Nat}
    (h : ((inject x.1 x.2).run d).value.1 = .ok index) : ∃ f, made? d.lineIndex x = some f := by
  rcases run_inject d x.1 x.2 with ⟨-, e, hrun⟩ | ⟨f, hmade, -⟩
  · rw [hrun] at h
    exact absurd h (by simp)
  · exact ⟨f, hmade⟩

/-- Injecting adds a fragment at the end. -/
theorem map_forget_inject (d : Document) (contents : Span) (g : Grammar) :
    (Request.perform d (.inject contents g)).fragments.map forget
      = d.fragments.map forget ++ (made? d.lineIndex (contents, g)).toList.map forget := by
  show (((inject contents g).run d).value.2).fragments.map forget = _
  rcases run_inject d contents g with ⟨hmade, e, hrun⟩ | ⟨f, hmade, hrun⟩
  · rw [hrun, hmade]
    exact (List.append_nil _).symm
  · rw [hrun, hmade]
    exact List.map_append

theorem Sound.map_forget_modify (hd : Sound d) (index : Nat) (q : Fragment.Request) :
    (d.fragments.modify index q.perform).map forget = d.fragments.map forget := by
  apply List.ext_getElem?
  intro i
  rw [List.getElem?_map, List.getElem?_map, List.getElem?_modify]
  cases hf : d.fragments[i]? with
  | none => rfl
  | some f =>
    split
    · exact congrArg some ((hd.reachable_fragment hf).serves.forget_perform q)
    · rfl

/-- A plain request adds what it injects, and leaves the fragments as they are but for their
    caches. -/
theorem Sound.map_forget_perform (hd : Sound d) {q : Request} (hq : q.IsPlain) :
    (q.perform d).fragments.map forget
      = d.fragments.map forget ++ (q.injected?.bind (made? d.lineIndex)).toList.map forget := by
  cases q with
  | inject contents g => exact map_forget_inject d contents g
  | injectRange contents range g => exact hq.elim
  | remove index => exact hq.elim
  | setVersion version => exact (List.append_nil _).symm
  | fragment index q => exact (hd.map_forget_modify index q).trans (List.append_nil _).symm
  | positionToDecoded p =>
    rcases perform_positionToDecoded d p with hperform | ⟨index, q, hperform⟩
    · rw [hperform]
      exact (List.append_nil _).symm
    · rw [hperform]
      exact (hd.map_forget_modify index q).trans (List.append_nil _).symm
  | decodedSpanToRange index span =>
    rw [perform_decodedSpanToRange]
    exact (hd.map_forget_modify index _).trans (List.append_nil _).symm

theorem Sound.map_forget_foldl (hd : Sound d) {requests : List Request}
    (hplain : ∀ q ∈ requests, q.IsPlain) :
    (requests.foldl Request.perform d).fragments.map forget
      = d.fragments.map forget
        ++ ((injections requests).filterMap (made? d.lineIndex)).map forget := by
  induction requests generalizing d with
  | nil => exact (List.append_nil _).symm
  | cons q requests ih =>
    obtain ⟨hq, hrest⟩ := List.forall_mem_cons.1 hplain
    have hfollows := follows_perform d q
    rw [List.foldl_cons, ih (hd.follows hfollows) hrest, hfollows.lineIndex_eq,
      hd.map_forget_perform hq, List.append_assoc]
    congr 1
    cases hinjected : q.injected? with
    | none => simp [injections, hinjected]
    | some x => cases hmade : made? d.lineIndex x <;> simp [injections, hinjected, hmade]

/-- After injecting and asking, the fragments without their caches are those that injecting made. -/
theorem map_forget_after (source : Text) (version : Int) {requests : List Request}
    (hplain : ∀ q ∈ requests, q.IsPlain) :
    (after source version requests).fragments.map forget
      = ((injections requests).filterMap (made? (LineIndex.ofText source))).map forget :=
  (sound_new source version).map_forget_foldl hplain

/-- What the caches have no part in can be read off the fragments that injecting made. -/
theorem map_after {δ : Type} (look : Fragment → δ) (hlook : ∀ f, look (forget f) = look f)
    (source : Text) (version : Int) {requests : List Request} (hplain : ∀ q ∈ requests, q.IsPlain) :
    (after source version requests).fragments.map look
      = ((injections requests).filterMap (made? (LineIndex.ofText source))).map look := by
  have hcomp : look ∘ forget = look := funext hlook
  have hforget := congrArg (List.map look) (map_forget_after source version hplain)
  rwa [List.map_map, List.map_map, hcomp] at hforget

/-! ## Lookups in documents with the same fragments -/

/-- No two fragments touch each other. -/
def IsSeparated (d : Document) : Prop := (d.fragments.map Fragment.hostSpan).Pairwise Span.IsApart

/-- The documents have the same text, and the same fragments but for their order and their
    caches. -/
structure SameFragments (d d' : Document) : Prop where
  lineIndex_eq : d'.lineIndex = d.lineIndex
  perm : (d.fragments.map forget).Perm (d'.fragments.map forget)

theorem SameFragments.symm (h : SameFragments d d') : SameFragments d' d :=
  ⟨h.lineIndex_eq.symm, h.perm.symm⟩

/-- Every fragment of the one document is one of the other, but for its caches. -/
theorem SameFragments.exists_mem (h : SameFragments d d') {f : Fragment} (hf : f ∈ d.fragments) :
    ∃ f' ∈ d'.fragments, f'.forget = f.forget :=
  List.mem_map.1 (h.perm.mem_iff.1 (List.mem_map_of_mem hf))

/-- An offset belongs to one fragment at most. -/
theorem IsSeparated.eq_of_contains (h : IsSeparated d) {f f' : Fragment} (hf : f ∈ d.fragments)
    (hf' : f' ∈ d.fragments) {offset : Nat} (hcontains : f.contains offset = true)
    (hcontains' : f'.contains offset = true) : f = f' := by
  have : Std.Symm fun f f' : Fragment => f.hostSpan.IsApart f'.hostSpan :=
    ⟨fun _ _ => Span.IsApart.symm⟩
  have hpairs : d.fragments.Pairwise fun f f' => f.hostSpan.IsApart f'.hostSpan :=
    List.pairwise_map.1 h
  by_contra hne
  have hapart := hpairs.forall hf hf' hne
  rw [Fragment.contains, hapart.not_touches hcontains] at hcontains'
  exact absurd hcontains' Bool.false_ne_true

theorem fragmentAt?_eq_none_iff {offset : Nat} :
    d.fragmentAt? offset = none ↔ ∀ f ∈ d.fragments, f.contains offset = false :=
  List.findIdx?_eq_none_iff

/-- Where the one document has no fragment, the other has none. -/
theorem SameFragments.fragmentAt?_eq_none (h : SameFragments d d') {offset : Nat}
    (hnone : d.fragmentAt? offset = none) : d'.fragmentAt? offset = none := by
  rw [fragmentAt?_eq_none_iff] at hnone ⊢
  intro f' hf'
  obtain ⟨f, hf, hforget⟩ := h.symm.exists_mem hf'
  have hcontains : f.forget.contains offset = false := hnone f hf
  rwa [hforget] at hcontains

/-- Where the one document has a fragment, the other has the same one. -/
theorem SameFragments.exists_fragmentAt? (h : SameFragments d d') (hseparated : IsSeparated d)
    {offset i : Nat} (hi : d.fragmentAt? offset = some i) :
    ∃ j f f', d'.fragmentAt? offset = some j ∧ d.fragments[i]? = some f ∧
      d'.fragments[j]? = some f' ∧ f'.forget = f.forget := by
  obtain ⟨⟨f, hf, hcontains⟩, -⟩ := fragmentAt?_eq_some_iff.1 hi
  cases hj : d'.fragmentAt? offset with
  | none =>
    rw [h.symm.fragmentAt?_eq_none hj] at hi
    exact absurd hi (by simp)
  | some j =>
    obtain ⟨⟨f', hf', hcontains'⟩, -⟩ := fragmentAt?_eq_some_iff.1 hj
    obtain ⟨f'', hf'', hforget⟩ := h.symm.exists_mem (List.mem_of_getElem? hf')
    have hcontains'' : f''.forget.contains offset = true := by
      rw [hforget]
      exact hcontains'
    -- What the other document has there is here as well, and only one fragment here has the offset.
    obtain rfl := hseparated.eq_of_contains (List.mem_of_getElem? hf) hf'' hcontains hcontains''
    exact ⟨j, f, f', rfl, hf, hf', hforget.symm⟩

/-- The answers name the same decoded offset, in fragments that stand at the same span. -/
def SameAnswer (d d' : Document) (a a' : Nat × Nat) : Prop :=
  a'.2 = a.2 ∧ ∃ f f', d.fragments[a.1]? = some f ∧ d'.fragments[a'.1]? = some f' ∧
    f'.hostSpan = f.hostSpan

theorem Sound.value_positionToDecoded? (hd : Sound d) {p : Position} {offset i : Nat} {f : Fragment}
    (hoffset : d.lineIndex.positionToOffset? p = some offset) (hi : d.fragmentAt? offset = some i)
    (hf : d.fragments[i]? = some f) :
    ((positionToDecoded? p).run d).value.1
      = (f.decodedAt? offset).map fun decoded => (i, decoded) := by
  rw [Document.value_positionToDecoded?, hoffset, Option.bind_some, hi, Option.bind_some, hf,
    Option.bind_some, (hd.reachable_fragment hf).value_hostToDecoded?]

/-- Documents with the same fragments, which do not touch each other, give the same answer for every
    position. -/
theorem SameFragments.positionToDecoded? (h : SameFragments d d') (hd : Sound d) (hd' : Sound d')
    (hseparated : IsSeparated d) (p : Position) :
    Option.Rel (SameAnswer d d') ((positionToDecoded? p).run d).value.1
      ((positionToDecoded? p).run d').value.1 := by
  cases hoffset : d.lineIndex.positionToOffset? p with
  | none =>
    rw [Document.value_positionToDecoded?, Document.value_positionToDecoded?, h.lineIndex_eq, hoffset]
    exact .none
  | some offset =>
    have hoffset' : d'.lineIndex.positionToOffset? p = some offset := by rw [h.lineIndex_eq, hoffset]
    cases hi : d.fragmentAt? offset with
    | none =>
      rw [Document.value_positionToDecoded?, Document.value_positionToDecoded?, hoffset, hoffset',
        Option.bind_some, Option.bind_some, hi, h.fragmentAt?_eq_none hi]
      exact .none
    | some i =>
      obtain ⟨j, f, f', hj, hf, hf', hforget⟩ := h.exists_fragmentAt? hseparated hi
      have hdecoded : f'.decodedAt? offset = f.decodedAt? offset := by
        show f'.forget.decodedAt? offset = f.forget.decodedAt? offset
        rw [hforget]
      have hspan : f'.hostSpan = f.hostSpan := by
        show f'.forget.hostSpan = f.forget.hostSpan
        rw [hforget]
      rw [hd.value_positionToDecoded? hoffset hi hf, hd'.value_positionToDecoded? hoffset' hj hf',
        hdecoded]
      cases f.decodedAt? offset with
      | none => exact .none
      | some decoded => exact .some ⟨rfl, f, f', hf, hf', hspan⟩

/-- They have the same diagnostics, but for their order. -/
theorem SameFragments.diagnostics_perm (h : SameFragments d d') :
    d.diagnostics.Perm d'.diagnostics := by
  have hforget : ∀ d : Document,
      d.diagnostics = (d.fragments.map forget).filterMap (·.diagnostic? d.lineIndex) := by
    intro d
    rw [List.filterMap_map]
    rfl
  rw [hforget d, hforget d', h.lineIndex_eq]
  exact h.perm.filterMap _

/-! ## Injecting in different orders -/

section Order

variable {requests requests' : List Request}

theorem sameFragments_after (source : Text) (version version' : Int)
    (hplain : ∀ q ∈ requests, q.IsPlain) (hplain' : ∀ q ∈ requests', q.IsPlain)
    (hperm : (injections requests).Perm (injections requests')) :
    SameFragments (after source version requests) (after source version' requests') := by
  constructor
  · rw [lineIndex_after, lineIndex_after]
  · rw [map_forget_after source version hplain, map_forget_after source version' hplain']
    exact (hperm.filterMap _).map forget

theorem isSeparated_after (source : Text) (version : Int) (hplain : ∀ q ∈ requests, q.IsPlain)
    (hapart : (injections requests).Pairwise fun x y => x.1.IsApart y.1) :
    IsSeparated (after source version requests) := by
  unfold IsSeparated
  rw [map_after Fragment.hostSpan (fun _ => rfl) source version hplain, List.pairwise_map]
  refine hapart.filterMap _ ?_
  intro x y hxy f hf f' hf'
  rw [← key_of_made? hf, ← key_of_made? hf'] at hxy
  exact hxy

/-- Literals that are apart can be injected in any order, with any questions in between. Both
    documents hold a fragment for each literal, in the order of the injections; they answer each
    position with the same decoded offset in fragments at the same span, or both with nothing; and
    they have the same diagnostics but for their order. -/
theorem positionToDecoded?_injection_order (source : Text) (version version' : Int)
    (hplain : ∀ q ∈ requests, q.IsPlain) (hplain' : ∀ q ∈ requests', q.IsPlain)
    (hperm : (injections requests).Perm (injections requests'))
    (haccepted : ∀ x ∈ injections requests, ∃ index,
      ((inject x.1 x.2).run (Document.new source version)).value.1 = .ok index)
    (hapart : (injections requests).Pairwise fun x y => x.1.IsApart y.1) :
    (after source version requests).fragments.map (fun f => (f.hostSpan, f.mapper.grammar))
      = injections requests ∧
    (after source version' requests').fragments.map (fun f => (f.hostSpan, f.mapper.grammar))
      = injections requests' ∧
    (∀ p, Option.Rel
      (SameAnswer (after source version requests) (after source version' requests'))
      ((positionToDecoded? p).run (after source version requests)).value.1
      ((positionToDecoded? p).run (after source version' requests')).value.1) ∧
    (after source version requests).diagnostics.Perm
      (after source version' requests').diagnostics := by
  have hmade : ∀ x ∈ injections requests, ∃ f, made? (LineIndex.ofText source) x = some f := by
    intro x hx
    obtain ⟨index, hindex⟩ := haccepted x hx
    exact exists_made?_of_inject hindex
  have hsame := sameFragments_after source version version' hplain hplain' hperm
  have hmade' : ∀ x ∈ injections requests', ∃ f, made? (LineIndex.ofText source) x = some f := by
    intro x hx
    exact hmade x (hperm.mem_iff.2 hx)
  refine ⟨?_, ?_, ?_, hsame.diagnostics_perm⟩
  · rw [map_after _ (fun _ => rfl) source version hplain, map_key_made? hmade]
  · rw [map_after _ (fun _ => rfl) source version' hplain', map_key_made? hmade']
  · intro p
    exact hsame.positionToDecoded? (reachable_after source version requests).sound
      (reachable_after source version' requests').sound
      (isSeparated_after source version hplain hapart) p

end Order

/-! A text of three literals with one unit between them, two of them malformed, and requests that
inject them in two orders with questions in between. -/

namespace Adjacent

def source : Text := "a\\q'b\\101'\\x".toList

def forwards : List Request :=
  [.inject ⟨0, 3⟩ Grammar.java, .positionToDecoded ⟨0, 2⟩, .inject ⟨4, 9⟩ Grammar.java,
    .inject ⟨10, 12⟩ Grammar.proto]

def shuffled : List Request :=
  [.inject ⟨4, 9⟩ Grammar.java, .fragment 0 (.toHost 1), .inject ⟨10, 12⟩ Grammar.proto,
    .inject ⟨0, 3⟩ Grammar.java]

end Adjacent

open Adjacent in
/-- The end of the literal in the middle belongs to the second fragment in the one document and to
    the first in the other. -/
theorem positionToDecoded?_injection_order_adjacent :
    (∀ q ∈ forwards, q.IsPlain) ∧ (∀ q ∈ shuffled, q.IsPlain) ∧
    (injections forwards).Perm (injections shuffled) ∧
    (∀ x ∈ injections forwards, ∃ index,
      ((inject x.1 x.2).run (Document.new source 1)).value.1 = .ok index) ∧
    (injections forwards).Pairwise (fun x y => x.1.IsApart y.1) ∧
    ((positionToDecoded? ⟨0, 9⟩).run (after source 1 forwards)).value.1 = some (1, 2) ∧
    ((positionToDecoded? ⟨0, 9⟩).run (after source 2 shuffled)).value.1 = some (0, 2) ∧
    (∀ p, Option.Rel (SameAnswer (after source 1 forwards) (after source 2 shuffled))
      ((positionToDecoded? p).run (after source 1 forwards)).value.1
      ((positionToDecoded? p).run (after source 2 shuffled)).value.1) ∧
    (after source 1 forwards).diagnostics.length = 2 ∧
    (after source 1 forwards).diagnostics.Perm (after source 2 shuffled).diagnostics := by
  have hplain : ∀ q ∈ forwards, q.IsPlain := by decide
  have hplain' : ∀ q ∈ shuffled, q.IsPlain := by decide
  have hperm : (injections forwards).Perm (injections shuffled) := by decide +kernel
  have haccepted : ∀ x ∈ injections forwards, ∃ index,
      ((inject x.1 x.2).run (Document.new source 1)).value.1 = .ok index := by
    have hzero : ∀ x ∈ injections forwards,
        ((inject x.1 x.2).run (Document.new source 1)).value.1 = .ok 0 := by decide +kernel
    exact fun x hx => ⟨0, hzero x hx⟩
  have hapart : (injections forwards).Pairwise (fun x y => x.1.IsApart y.1) := by decide +kernel
  obtain ⟨-, -, hanswers, hdiagnostics⟩ :=
    positionToDecoded?_injection_order source 1 2 hplain hplain' hperm haccepted hapart
  exact ⟨hplain, hplain', hperm, haccepted, hapart, by decide +kernel, by decide +kernel, hanswers,
    by decide +kernel, hdiagnostics⟩

end Document

end Unescape
