import Mathlib.Data.List.Induction
import Unescape.Proofs.CacheTransparency

set_option autoImplicit false

/-! # What requests do to the caches

Beside its answer, a request may do two things that a later one can tell: build the table of the
literal, which is reported as an event, and make another range the one that was used last. `Effect` is
what a computation does of that, and every operation of a mapper has one (`Request.hasEffectAt`).

So the caches after a run of requests follow from the requests: the table is there if some request of
the run built it, and was reported once (`isSome_table_after_iff`, `indexings_reported`); the range
used last is that of the last request that uses one (`lastStart?_after`). -/

namespace Unescape

/-- Whether the event is that the table of a literal is being built. -/
def Event.isIndexing : Event → Bool
  | indexing .. => true
  | _ => false

namespace Mapper

variable {g : Grammar} {host : Text} {α β : Type}

/-- The start of the range that was used last. -/
def lastStart? (m : Mapper) : Option Nat := m.baseline.map (·.rangeStart)

/-! ## Effects of a computation -/

/-- What a computation does to the caches. -/
structure Effect where
  /-- It needs the table, and builds it if there is none. -/
  builds : Bool
  /-- The start of the last range that it uses. -/
  uses : Option Nat
deriving DecidableEq, Repr

namespace Effect

/-- Nothing is done. -/
def none : Effect := ⟨false, .none⟩

/-- One effect and then another. -/
def andThen (e f : Effect) : Effect := ⟨e.builds || f.builds, f.uses.or e.uses⟩

@[simp] theorem none_andThen (e : Effect) : none.andThen e = e := by
  cases e
  simp [andThen, none]

@[simp] theorem andThen_none (e : Effect) : e.andThen none = e := by
  cases e
  simp [andThen, none]

end Effect

/-- An effect takes a mapper of a literal to another one and reports events. -/
structure Effect.Leads (g : Grammar) (host : Text) (e : Effect) (m m' : Mapper)
    (events : List Event) : Prop where
  isSome_table : m'.table.isSome = (m.table.isSome || e.builds)
  lastStart?_eq : m'.lastStart? = e.uses.or m.lastStart?
  indexings : events.filter Event.isIndexing =
    if !m.table.isSome && e.builds then [.indexing g.name (Text.units host)] else []

/-- A computation has an effect on a mapper. -/
abbrev HasEffectAt (g : Grammar) (host : Text) (m : Mapper) (x : MapperM α) (e : Effect) : Prop :=
  e.Leads g host m (x.run m).value.2 (x.run m).events

/-- A computation has the same effect on every mapper of a literal. -/
def HasEffect (g : Grammar) (host : Text) (x : MapperM α) (e : Effect) : Prop :=
  ∀ m, Serves g host m → HasEffectAt g host m x e

theorem HasEffectAt.pure (m : Mapper) (a : α) :
    HasEffectAt g host m (Pure.pure a) Effect.none :=
  ⟨by simp [Effect.none], by simp [Effect.none], by simp [Effect.none]⟩

theorem HasEffect.pure (a : α) : HasEffect g host (Pure.pure a) Effect.none :=
  fun m _ => .pure m a

theorem HasEffectAt.bind {m : Mapper} {x : MapperM α} {f : α → MapperM β} {e₁ e₂ : Effect}
    (hx : HasEffectAt g host m x e₁)
    (hf : HasEffectAt g host (x.run m).value.2 (f (x.run m).value.1) e₂) :
    HasEffectAt g host m (x >>= f) (e₁.andThen e₂) where
  isSome_table := by
    have hafter := hf.isSome_table
    rw [hx.isSome_table, Bool.or_assoc] at hafter
    exact hafter
  lastStart?_eq := by
    have hafter := hf.lastStart?_eq
    rw [hx.lastStart?_eq, ← Option.or_assoc] at hafter
    exact hafter
  indexings := by
    -- What is built by the first part is not built again by the second one.
    have hafter := hf.indexings
    rw [hx.isSome_table] at hafter
    rw [StateT.run_bind, Logged.events_bind, List.filter_append, hx.indexings, hafter]
    cases m.table.isSome <;> cases h₁ : e₁.builds <;> cases h₂ : e₂.builds <;>
      simp [Effect.andThen, h₁, h₂]

theorem HasEffect.bind {x : MapperM α} {f : α → MapperM β} {a : α} {e₁ e₂ : Effect}
    (hx : HasEffect g host x e₁) (ha : Answers g host x a) (hf : HasEffect g host (f a) e₂) :
    HasEffect g host (x >>= f) (e₁.andThen e₂) := by
  intro m hm
  obtain ⟨hvalue, hserves⟩ := ha m hm
  refine (hx m hm).bind ?_
  rw [hvalue]
  exact hf _ hserves

theorem HasEffectAt.get_bind {m : Mapper} {f : Mapper → MapperM β} {e : Effect}
    (hf : HasEffectAt g host m (f m) e) : HasEffectAt g host m (get >>= f) e := by
  have hget : HasEffectAt g host m (get : MapperM Mapper) Effect.none :=
    ⟨by simp [Effect.none], by simp [Effect.none], by simp [Effect.none]⟩
  have hboth := hget.bind hf
  rwa [Effect.none_andThen] at hboth

theorem HasEffect.emit {e : Event} (he : e.isIndexing = false) :
    HasEffect g host (liftM (Unescape.emit e) : MapperM Unit) Effect.none := by
  intro m _
  have hrun : (liftM (Unescape.emit e) : MapperM Unit).run m = ⟨((), m), [e]⟩ := rfl
  constructor <;> simp [hrun, Effect.none, he]

/-! ## Effects of the operations -/

theorem hasEffect_offsetTable : HasEffect g host offsetTable ⟨true, none⟩ := by
  rintro ⟨host', g', table, baseline⟩ ⟨rfl, rfl, -, -⟩
  cases table with
  | some table => exact ⟨rfl, rfl, rfl⟩
  | none => exact ⟨rfl, rfl, rfl⟩

theorem hasEffect_setBaseline (start : Nat) :
    HasEffect g host (setBaseline start) ⟨false, some start⟩ := by
  intro m _
  exact ⟨(Bool.or_false _).symm, rfl, by simp [setBaseline]⟩

theorem hasEffect_baselineFor (start : Nat) :
    HasEffect g host (baselineFor start) ⟨false, some start⟩ := by
  intro m hm
  refine HasEffectAt.get_bind ?_
  cases hb : m.baseline with
  | none => exact hasEffect_setBaseline start m hm
  | some b =>
    dsimp only
    split
    · -- The range is the one that was used last.
      rename_i hstart
      constructor <;> simp [lastStart?, hb, hstart]
    · exact hasEffect_setBaseline start m hm

/-- The index of a unit of a range in the table of the literal is an offset. -/
def HasIndex (g : Grammar) (host : Text) (offset : Nat) (range : Span) : Prop :=
  offset + decodedUnits g (Text.takeUnits host range.start) < offsetLimit

instance (g : Grammar) (host : Text) (offset : Nat) (range : Span) :
    Decidable (HasIndex g host offset range) :=
  inferInstanceAs (Decidable (_ < _))

/-- A lookup needs the table unless the index overflows. -/
theorem hasEffect_lookup (offset : Nat) (range : Span) :
    HasEffect g host (lookup offset range) ⟨HasIndex g host offset range, some range.start⟩ := by
  have hbaseline : Answers g host (baselineFor range.start) _ := answers_baselineFor range.start
  by_cases hindex : HasIndex g host offset range
  · have hadd : addOffset? offset (decodedUnits g (Text.takeUnits host range.start)) = some _ :=
      if_pos hindex
    rw [decide_eq_true hindex]
    refine (hasEffect_baselineFor range.start).bind hbaseline
      (?_ : HasEffect g host _ ⟨true, none⟩)
    rw [hadd]
    refine hasEffect_offsetTable.bind answers_offsetTable (?_ : HasEffect g host _ Effect.none)
    split
    · exact .pure _
    · intro m _
      refine HasEffectAt.get_bind ?_
      cases m.rangeTable? range <;> exact .pure m _
  · have hadd : addOffset? offset (decodedUnits g (Text.takeUnits host range.start)) = none :=
      if_neg hindex
    rw [decide_eq_false hindex]
    refine (hasEffect_baselineFor range.start).bind hbaseline (?_ : HasEffect g host _ Effect.none)
    rw [hadd]
    exact .pure _

theorem hasEffect_mapToHost (offset : Nat) (range : Span) :
    HasEffect g host (mapToHost offset range) ⟨HasIndex g host offset range, some range.start⟩ := by
  rw [← Effect.andThen_none ⟨HasIndex g host offset range, some range.start⟩]
  refine (hasEffect_lookup offset range).bind (answers_lookup offset range) ?_
  cases lookupFresh g host offset range <;> exact .pure _

theorem hasEffect_mapSpanToHost (span range : Span) :
    HasEffect g host (mapSpanToHost span range)
      ⟨HasIndex g host span.start range || HasIndex g host span.stop range, some range.start⟩ := by
  refine (hasEffect_mapToHost span.start range).bind (answers_mapToHost span.start range)
    (?_ : HasEffect g host _ ⟨HasIndex g host span.stop range, some range.start⟩)
  rw [← Effect.andThen_none ⟨HasIndex g host span.stop range, some range.start⟩]
  exact (hasEffect_mapToHost span.stop range).bind (answers_mapToHost span.stop range) (.pure _)

theorem hasEffect_mapToDecoded (offset : Nat) (range : Span) :
    HasEffect g host (mapToDecoded offset range) ⟨true, some range.start⟩ := by
  refine (hasEffect_baselineFor range.start).bind (answers_baselineFor range.start)
    (?_ : HasEffect g host _ ⟨true, none⟩)
  refine hasEffect_offsetTable.bind answers_offsetTable (?_ : HasEffect g host _ Effect.none)
  split
  · exact .pure _
  · intro m _
    refine HasEffectAt.get_bind ?_
    cases m.rangeTable? range <;> exact .pure m _

/-- Decoding a range needs the table and uses the range, if the range names a part of the host. -/
theorem hasEffect_decodeChecked (range : Span) (chars : Array Char) :
    HasEffect g host ((decodeChecked range).run chars)
      ⟨(Text.slice? host range).isSome, (Text.slice? host range).map fun _ => range.start⟩ := by
  intro m hm
  rw [run_decodeChecked]
  refine HasEffectAt.get_bind ?_
  rw [hm.host_eq]
  cases Text.slice? host range with
  | none => exact .pure m _
  | some part =>
    suffices hrest : HasEffect g host _ ⟨true, some range.start⟩ from hrest m hm
    refine hasEffect_offsetTable.bind answers_offsetTable
      (?_ : HasEffect g host _ ⟨false, some range.start⟩)
    refine (hasEffect_setBaseline range.start).bind (answers_setBaseline range.start)
      (?_ : HasEffect g host _ Effect.none)
    dsimp only
    cases (decode m.grammar part (Output.plain chars)).2.shift range.start with
    | complete => exact .pure _
    | stopped e =>
      have hevent : (Event.malformed e.kind m.grammar.name e.span).isIndexing = false := rfl
      have hanswer : Answers g host (liftM (Unescape.emit (.malformed e.kind m.grammar.name e.span)))
        () := fun m hm => ⟨rfl, hm⟩
      refine (HasEffect.emit hevent).bind hanswer (?_ : HasEffect g host _ Effect.none)
      exact .pure _

theorem hasEffect_decodeRange (range : Span) (chars : Array Char) :
    HasEffect g host ((decodeRange range).run chars)
      ⟨(Text.slice? host range).isSome, (Text.slice? host range).map fun _ => range.start⟩ := by
  rw [← Effect.andThen_none (Effect.mk _ _), run_decodeRange]
  exact (hasEffect_decodeChecked range chars).bind (answers_decodeChecked range chars) (.pure _)

/-- Using the range that was used last changes nothing. -/
theorem HasEffectAt.of_lastStart {m : Mapper} {x : MapperM α} {builds : Bool} {start : Nat}
    (hlast : m.lastStart? = some start) (hx : HasEffectAt g host m x ⟨builds, some start⟩) :
    HasEffectAt g host m x ⟨builds, none⟩ :=
  ⟨hx.isSome_table, by rw [hx.lastStart?_eq, hlast]; rfl, hx.indexings⟩

/-- A strict lookup that is not refused needs the table as another lookup does. It uses no other
    range than the one that was used last. -/
theorem hasEffectAt_tryMapToHost {m : Mapper} (hm : Serves g host m) (offset : Nat) (range : Span) :
    HasEffectAt g host m (tryMapToHost offset range)
      ⟨m.lastStart? = some range.start && HasIndex g host offset range, none⟩ := by
  refine HasEffectAt.get_bind ?_
  cases hb : m.baseline with
  | none =>
    simp only [lastStart?, hb, Option.map_none, reduceCtorEq, decide_false, Bool.false_and]
    exact .pure m _
  | some b =>
    have hlast : m.lastStart? = some b.rangeStart := by rw [lastStart?, hb, Option.map_some]
    dsimp only
    by_cases hstart : b.rangeStart = range.start
    · rw [hstart] at hlast
      rw [if_pos hstart, decide_eq_true hlast, Bool.true_and]
      refine .of_lastStart hlast ?_
      rw [← Effect.andThen_none (Effect.mk _ _)]
      suffices hlookup : HasEffect g host _ _ from hlookup m hm
      refine (hasEffect_lookup offset range).bind (answers_lookup offset range) ?_
      cases lookupFresh g host offset range <;> exact .pure _
    · have hother : ¬ m.lastStart? = some range.start := by
        rw [hlast]
        exact fun h => hstart (Option.some.inj h)
      rw [if_neg hstart, decide_eq_false hother, Bool.false_and]
      exact .pure m _

/-! ## Effects of requests -/

namespace Request

/-- Whether a request needs the table of the literal. -/
def builds (g : Grammar) (host : Text) (m : Mapper) : Request → Bool
  | decode range _ => (Text.slice? host range).isSome
  | decodeChecked range _ => (Text.slice? host range).isSome
  | toHost offset range => HasIndex g host offset range
  | spanToHost span range => HasIndex g host span.start range || HasIndex g host span.stop range
  | toDecoded _ _ => true
  | tryToHost offset range => m.lastStart? = some range.start && HasIndex g host offset range
  | table => true

/-- The start of the range that a request uses. A strict lookup uses none but the one that was used
    last. -/
def usedStart? (host : Text) : Request → Option Nat
  | decode range _ => (Text.slice? host range).map fun _ => range.start
  | decodeChecked range _ => (Text.slice? host range).map fun _ => range.start
  | toHost _ range => some range.start
  | spanToHost _ range => some range.start
  | toDecoded _ range => some range.start
  | tryToHost _ _ => none
  | table => none

/-- What a request reports. -/
def events (m : Mapper) : Request → List Event
  | decode range chars => (((Mapper.decodeRange range).run chars).run m).events
  | decodeChecked range chars => (((Mapper.decodeChecked range).run chars).run m).events
  | toHost offset range => ((mapToHost offset range).run m).events
  | spanToHost span range => ((mapSpanToHost span range).run m).events
  | toDecoded host range => ((mapToDecoded host range).run m).events
  | tryToHost offset range => ((tryMapToHost offset range).run m).events
  | table => (offsetTable.run m).events

/-- A request needs the table, and uses a range, as `builds` and `usedStart?` say. -/
theorem leads {m : Mapper} (hm : Serves g host m) (q : Request) :
    (Effect.mk (q.builds g host m) (q.usedStart? host)).Leads g host m (q.perform m) (q.events m) := by
  cases q with
  | decode range chars => exact hasEffect_decodeRange range chars m hm
  | decodeChecked range chars => exact hasEffect_decodeChecked range chars m hm
  | toHost offset range => exact hasEffect_mapToHost offset range m hm
  | spanToHost span range => exact hasEffect_mapSpanToHost span range m hm
  | toDecoded offset range => exact hasEffect_mapToDecoded offset range m hm
  | tryToHost offset range => exact hasEffectAt_tryMapToHost hm offset range
  | table => exact hasEffect_offsetTable m hm

end Request

/-! ## Runs of requests -/

/-- What a sequence of requests reports. -/
def reported (m : Mapper) : List Request → List Event
  | [] => []
  | q :: requests => q.events m ++ reported (q.perform m) requests

/-- Some request of a run has a property, together with the mapper that it is asked of. -/
def Happens (g : Grammar) (host : Text) (p : Mapper → Request → Prop) (requests : List Request) :
    Prop :=
  ∃ before q later, requests = before ++ q :: later ∧ p (after g host before) q

variable {p : Mapper → Request → Prop} {requests : List Request}

theorem serves_after (g : Grammar) (host : Text) (requests : List Request) :
    Serves g host (after g host requests) :=
  (reachable_after g host requests).serves

theorem after_append (more : List Request) :
    after g host (requests ++ more) = more.foldl Request.perform (after g host requests) :=
  List.foldl_append

theorem after_concat (q : Request) :
    after g host (requests ++ [q]) = q.perform (after g host requests) :=
  after_append [q]

theorem reported_concat (m : Mapper) (q : Request) :
    reported m (requests ++ [q]) =
      reported m requests ++ q.events (requests.foldl Request.perform m) := by
  induction requests generalizing m with
  | nil => simp [reported]
  | cons q' requests ih => simp [reported, ih]

theorem not_happens_nil : ¬ Happens g host p [] := by
  rintro ⟨before, q, later, h, -⟩
  simp at h

/-- A run is taken apart at its last request. -/
theorem happens_concat_iff (q : Request) :
    Happens g host p (requests ++ [q]) ↔
      Happens g host p requests ∨ p (after g host requests) q := by
  constructor
  · rintro ⟨before, q', later, h, hp⟩
    rcases List.eq_nil_or_concat later with rfl | ⟨later, q'', rfl⟩
    · obtain ⟨rfl, hq⟩ := List.append_inj' h rfl
      obtain rfl := List.head_eq_of_cons_eq hq
      exact .inr hp
    · have hsplit : requests ++ [q] = (before ++ q' :: later) ++ [q''] := by simp [h]
      obtain ⟨rfl, -⟩ := List.append_inj' hsplit rfl
      exact .inl ⟨before, q', later, rfl, hp⟩
  · rintro (⟨before, q', later, rfl, hp⟩ | hp)
    · exact ⟨before, q', later ++ [q], by simp, hp⟩
    · exact ⟨requests, q, [], rfl, hp⟩

/-- The table is there if some request of the run needed it. -/
theorem isSome_table_after_iff :
    (after g host requests).table.isSome = true ↔
      Happens g host (fun m q => q.builds g host m = true) requests := by
  induction requests using List.reverseRecOn with
  | nil => exact iff_of_false (by simp [after, new]) not_happens_nil
  | append_singleton requests q ih =>
    rw [after_concat, (q.leads (serves_after g host requests)).isSome_table, Bool.or_eq_true, ih,
      happens_concat_iff]

/-- Building the table is reported once. -/
theorem indexings_reported :
    (reported (new host g) requests).filter Event.isIndexing =
      if (after g host requests).table.isSome then [.indexing g.name (Text.units host)] else [] := by
  induction requests using List.reverseRecOn with
  | nil => rfl
  | append_singleton requests q ih =>
    have hlast := q.leads (serves_after g host requests)
    rw [reported_concat, List.filter_append, ih, after_concat, hlast.isSome_table]
    refine (congrArg _ hlast.indexings).trans ?_
    cases (after g host requests).table.isSome <;> cases q.builds g host (after g host requests) <;>
      rfl

/-- The range that was used last is that of the last request that uses one. -/
theorem lastStart?_after :
    (after g host requests).lastStart? = (requests.filterMap (·.usedStart? host)).getLast? := by
  induction requests using List.reverseRecOn with
  | nil => rfl
  | append_singleton requests q ih =>
    rw [after_concat, (q.leads (serves_after g host requests)).lastStart?_eq, ih,
      List.filterMap_append]
    cases hq : q.usedStart? host <;> simp [hq]

end Mapper

end Unescape
