import SymWord.Memory.Layout

/-!
# One layout for a whole run

A run is any sequence of attempts to install a layout and of questions about addresses. What a
single installation does depends only on whether the layout is valid and whether there is one
already (`install_cases`), and questions change nothing. So after any run the installed layout is
the first valid one that was tried (`run_layout?`), it stays whatever follows, and every reply can
be told from the attempts that came before.

Classification and validation both look for the first in a list, once of regions and once of ranges.
Both lists are in the order of `Region.rank`, so the first is the one of least rank.
-/

namespace SymWord

namespace Region

/-- The place of a region in the order of classification. -/
def rank : Region → Nat
  | rodata => 0
  | data => 1
  | text => 2
  | header => 3
  | heap => 4
  | stack => 5

theorem mem_all (r : Region) : r ∈ all := by
  cases r <;> simp [all]

theorem pairwise_all : all.Pairwise (·.rank < ·.rank) := by
  simp [all, rank]

end Region

/-- In a list by increasing rank the first that is wanted is the one of least rank. -/
theorem find?_eq_some_iff_rank {α : Type} {f : α → Nat} {p : α → Bool} {l : List α} {a : α}
    (h : l.Pairwise (f · < f ·)) :
    l.find? p = some a ↔ a ∈ l ∧ p a = true ∧ ∀ b ∈ l, f b < f a → p b = false := by
  rw [List.find?_eq_some_iff_append]
  constructor
  · rintro ⟨ha, front, back, rfl, hfront⟩
    refine ⟨by simp, ha, fun b hb hlt => ?_⟩
    obtain ⟨-, hback, -⟩ := List.pairwise_append.1 h
    rcases List.mem_append.1 hb with hb | hb
    · simpa using hfront b hb
    · rcases List.mem_cons.1 hb with rfl | hb
      · omega
      · have := (List.pairwise_cons.1 hback).1 b hb
        omega
  · rintro ⟨hmem, ha, hleast⟩
    obtain ⟨front, back, rfl⟩ := List.append_of_mem hmem
    refine ⟨ha, front, back, rfl, fun b hb => ?_⟩
    have hlt := (List.pairwise_append.1 h).2.2 b hb a List.mem_cons_self
    simpa using hleast b (List.mem_append_left _ hb) hlt

namespace Layout

variable {l : Layout} {r : Region} {range : AddressRange} {a : Nat}

/-- The two ends of a region that is given by them. -/
def range? (l : Layout) : Region → Option AddressRange
  | .rodata => some l.rodata
  | .data => some l.data
  | .text => some l.text
  | .heap => some l.heap
  | .header | .stack => none

/-- No range ends before it starts. -/
def Valid (l : Layout) : Prop := ∀ r range, l.range? r = some range → range.start ≤ range.stop

/-- The range ends before it starts, and no range of a region earlier in the order does. -/
structure FirstInverted (l : Layout) (r : Region) (range : AddressRange) : Prop where
  range_eq : l.range? r = some range
  inverted : range.stop < range.start
  first : ∀ r' range', r'.rank < r.rank → l.range? r' = some range' → range'.start ≤ range'.stop

theorem mem_ranges : (r, range) ∈ l.ranges ↔ l.range? r = some range := by
  cases r <;> simp [ranges, range?, eq_comm]

theorem pairwise_ranges (l : Layout) : l.ranges.Pairwise (·.1.rank < ·.1.rank) := by
  simp [ranges, Region.rank]

theorem valid_iff : l.Valid ↔ ∀ p ∈ l.ranges, p.2.start ≤ p.2.stop := by
  constructor
  · rintro h ⟨r, range⟩ hp
    exact h r range (mem_ranges.1 hp)
  · intro h r range hr
    exact h (r, range) (mem_ranges.2 hr)

instance : DecidablePred Valid := fun _ => decidable_of_iff _ valid_iff.symm

theorem find?_isInverted : l.ranges.find? (·.2.isInverted) = some (r, range)
    ↔ l.FirstInverted r range := by
  rw [find?_eq_some_iff_rank l.pairwise_ranges, mem_ranges]
  constructor
  · rintro ⟨hr, hinv, hfirst⟩
    refine ⟨hr, by simpa [AddressRange.isInverted] using hinv, fun r' range' hlt hr' => ?_⟩
    simpa [AddressRange.isInverted] using hfirst (r', range') (mem_ranges.2 hr') hlt
  · rintro ⟨hr, hinv, hfirst⟩
    refine ⟨hr, by simpa [AddressRange.isInverted] using hinv, ?_⟩
    rintro ⟨r', range'⟩ hp hlt
    simpa [AddressRange.isInverted] using hfirst r' range' hlt (mem_ranges.1 hp)

theorem validate_of_firstInverted (h : l.FirstInverted r range) :
    l.validate = .error (.invertedRange r range) := by
  rw [validate, find?_isInverted.2 h]

theorem validate_of_valid (h : l.Valid) : l.validate = .ok () := by
  have hnone : l.ranges.find? (·.2.isInverted) = none := by
    rw [List.find?_eq_none]
    intro p hp
    simpa [AddressRange.isInverted] using valid_iff.1 h p hp
  rw [validate, hnone]

theorem FirstInverted.not_valid (h : l.FirstInverted r range) : ¬l.Valid := by
  intro hv
  have := hv r range h.range_eq
  have := h.inverted
  omega

theorem valid_or_firstInverted (l : Layout) : l.Valid ∨ ∃ r range, l.FirstInverted r range := by
  rcases h : l.ranges.find? (·.2.isInverted) with _ | ⟨r, range⟩
  · refine .inl (valid_iff.2 fun p hp => ?_)
    simpa [AddressRange.isInverted] using List.find?_eq_none.1 h p hp
  · exact .inr ⟨r, range, find?_isInverted.1 h⟩

theorem classify_eq_some_iff : l.classify a = some r
    ↔ l.contains r a = true ∧ ∀ r', r'.rank < r.rank → l.contains r' a = false := by
  rw [classify, find?_eq_some_iff_rank Region.pairwise_all]
  constructor
  · rintro ⟨-, hr, hfirst⟩
    exact ⟨hr, fun r' => hfirst r' (Region.mem_all r')⟩
  · rintro ⟨hr, hfirst⟩
    exact ⟨Region.mem_all r, hr, fun r' _ => hfirst r'⟩

end Layout

namespace Installation

/-! ## One step -/

/-- Everything that an attempt to install a layout can come to. -/
theorem install_cases (i : Installation) (l : Layout) :
    (∃ r range, l.FirstInverted r range ∧ i.install l = (.error (.invertedRange r range), i))
    ∨ (l.Valid ∧ i.layout?.isSome ∧ i.install l = (.error .layoutInstalled, i))
    ∨ (l.Valid ∧ i.layout? = none ∧ i.install l = (.ok (), ⟨some l⟩)) := by
  rcases l.valid_or_firstInverted with h | ⟨r, range, h⟩
  · rcases hi : i.layout? with _ | l'
    · exact .inr (.inr ⟨h, rfl, by simp [install, Layout.validate_of_valid h, hi]⟩)
    · exact .inr (.inl ⟨h, rfl, by simp [install, Layout.validate_of_valid h, hi]⟩)
  · exact .inl ⟨r, range, h, by simp [install, Layout.validate_of_firstInverted h]⟩

/-- What can happen in a run. -/
inductive Event where
  | install (l : Layout)
  | contains (r : Region) (a : Nat)
  | classify (a : Nat)

inductive Reply where
  | installed (result : Except Error Unit)
  | contained (result : Except Error Bool)
  | classified (result : Except Error (Option Region))

def step (i : Installation) : Event → Reply × Installation
  | .install l => (.installed (i.install l).1, (i.install l).2)
  | .contains r a => (.contained (i.contains r a), i)
  | .classify a => (.classified (i.classify a), i)

/-- The replies to all events in turn, and the installation after them. -/
def run (i : Installation) : List Event → List Reply × Installation
  | [] => ([], i)
  | e :: es => ((i.step e).1 :: ((i.step e).2.run es).1, ((i.step e).2.run es).2)

/-- The layouts that were tried. -/
def attempts (es : List Event) : List Layout :=
  es.filterMap fun
    | .install l => some l
    | _ => none

/-- The first valid layout that was tried. -/
def firstValid (es : List Event) : Option Layout := (attempts es).find? (·.Valid)

theorem firstValid_cons (e : Event) (es : List Event) :
    firstValid (e :: es) = (firstValid [e]).or (firstValid es) := by
  have happend : attempts (e :: es) = attempts [e] ++ attempts es :=
    List.filterMap_append (l := [e])
  rw [firstValid, happend, List.find?_append]
  rfl

theorem step_layout? (i : Installation) (e : Event) :
    (i.step e).2.layout? = i.layout?.or (firstValid [e]) := by
  cases e with
  | install l =>
    have hfirst : firstValid [.install l] = if l.Valid then some l else none := by
      by_cases h : l.Valid <;> simp [firstValid, attempts, h]
    rcases i.install_cases l with ⟨r, range, h, hi⟩ | ⟨h, hsome, hi⟩ | ⟨h, hnone, hi⟩
    · simp [step, hi, hfirst, h.not_valid]
    · simp [step, hi, Option.or_of_isSome hsome]
    · simp [step, hi, hfirst, hnone, h]
  | contains r a => simp [step, firstValid, attempts]
  | classify a => simp [step, firstValid, attempts]

/-! ## Whole runs -/

theorem run_layout? : ∀ (i : Installation) (es : List Event),
    (i.run es).2.layout? = i.layout?.or (firstValid es)
  | i, [] => by simp [run, firstValid, attempts]
  | i, e :: es => by
    rw [run, run_layout? (i.step e).2 es, step_layout?, Option.or_assoc, ← firstValid_cons]

theorem run_append : ∀ (i : Installation) (es es' : List Event),
    i.run (es ++ es') = ((i.run es).1 ++ ((i.run es).2.run es').1, ((i.run es).2.run es').2)
  | i, [], es' => rfl
  | i, e :: es, es' => by
    simp only [List.cons_append, run, run_append (i.step e).2 es es']

theorem length_run : ∀ (i : Installation) (es : List Event), (i.run es).1.length = es.length
  | i, [] => rfl
  | i, e :: es => by simp [run, length_run (i.step e).2 es]

theorem getElem?_run (i : Installation) (es : List Event) (e : Event) (es' : List Event) :
    (i.run (es ++ e :: es')).1[es.length]? = some ((i.run es).2.step e).1 := by
  rw [run_append, ← length_run i es, List.getElem?_append_right (Nat.le_refl _), Nat.sub_self]
  rfl

/-- A question is answered by the first valid layout, and is in vain where none was tried. -/
structure Answered {α : Type} (before : List Event) (answer : Layout → α)
    (result : Except Error α) : Prop where
  missing : result = .error .layoutMissing ↔ ∀ l ∈ attempts before, ¬l.Valid
  found : ∀ l, firstValid before = some l → result = .ok (answer l)

/-- A layout is refused for its first inverted range if it has one, else if a valid one came before,
and is installed otherwise. -/
structure Decided (before : List Event) (l : Layout) (result : Except Error Unit) : Prop where
  invalid : (∃ r range, result = .error (.invertedRange r range)) ↔ ¬l.Valid
  inverted : ∀ r range, result = .error (.invertedRange r range) ↔ l.FirstInverted r range
  repeated : result = .error .layoutInstalled ↔ l.Valid ∧ ∃ l' ∈ attempts before, l'.Valid
  installed : result = .ok () ↔ l.Valid ∧ ∀ l' ∈ attempts before, ¬l'.Valid

/-- The reply that an event gets after the events before it. -/
def Replies (before : List Event) : Event → Reply → Prop
  | .install l, .installed result => Decided before l result
  | .contains r a, .contained result => Answered before (·.contains r a) result
  | .classify a, .classified result => Answered before (·.classify a) result
  | _, _ => False

variable {before : List Event}

theorem firstValid_eq_none_iff : firstValid before = none ↔ ∀ l ∈ attempts before, ¬l.Valid := by
  simp [firstValid]

theorem isSome_firstValid_iff : (firstValid before).isSome ↔ ∃ l ∈ attempts before, l.Valid := by
  simp [firstValid]

theorem answered {α : Type} (before : List Event) (answer : Layout → α) : Answered before answer
    (match firstValid before with
      | some l => .ok (answer l)
      | none => .error .layoutMissing) := by
  constructor
  · rw [← firstValid_eq_none_iff]
    cases firstValid before <;> simp
  · intro l hl
    rw [hl]

theorem decided {i : Installation} (hi : i.layout? = firstValid before) (l : Layout) :
    Decided before l (i.install l).1 := by
  rcases i.install_cases l with ⟨r, range, h, heq⟩ | ⟨h, hsome, heq⟩ | ⟨h, hnone, heq⟩
  · rw [heq]
    refine ⟨by simp [h.not_valid], fun r' range' => ?_, by simp [h.not_valid],
      by simp [h.not_valid]⟩
    constructor
    · intro he
      simp only [Except.error.injEq, Error.invertedRange.injEq] at he
      obtain ⟨rfl, rfl⟩ := he
      exact h
    · intro h'
      rw [← Layout.validate_of_firstInverted h, Layout.validate_of_firstInverted h']
  · have hfirst : ∀ r range, ¬l.FirstInverted r range := fun r range h' => h'.not_valid h
    have hbefore := isSome_firstValid_iff.1 (hi ▸ hsome)
    rw [heq]
    exact ⟨by simp [h], by simp [hfirst], by simpa [h] using hbefore, by simpa [h] using hbefore⟩
  · have hfirst : ∀ r range, ¬l.FirstInverted r range := fun r range h' => h'.not_valid h
    have hbefore := firstValid_eq_none_iff.1 (hi ▸ hnone)
    rw [heq]
    exact ⟨by simp [h], by simp [hfirst], by simpa [h] using hbefore, by simpa [h] using hbefore⟩

/-- After any run the installed layout is the first valid one that was tried, and it stays whatever
follows. The reply to each event is told by the attempts before it, and an address is classified by
the earliest region that contains it. -/
theorem run_first_valid (before later : List Event) (e : Event) :
    (empty.run before).2.layout? = firstValid before
    ∧ (∀ l, (empty.run before).2.layout? = some l →
      (empty.run (before ++ later)).2.layout? = some l)
    ∧ (∃ reply, (empty.run (before ++ e :: later)).1[before.length]? = some reply
      ∧ Replies before e reply)
    ∧ ∀ (l : Layout) (a : Nat) (r : Region), l.classify a = some r
      ↔ l.contains r a = true ∧ ∀ r', r'.rank < r.rank → l.contains r' a = false := by
  have hlayout : (empty.run before).2.layout? = firstValid before := by
    simp [run_layout?, empty]
  refine ⟨hlayout, fun l hl => ?_, ⟨_, getElem?_run empty before e later, ?_⟩,
    fun l a r => Layout.classify_eq_some_iff⟩
  · rw [run_append, run_layout?, hl, Option.some_or]
  · cases e with
    | install l => exact decided hlayout l
    | contains r a =>
      have h := answered before (·.contains r a)
      rwa [← hlayout] at h
    | classify a =>
      have h := answered before (·.classify a)
      rwa [← hlayout] at h

/-- A layout with an inverted heap is passed over, the next one stays, and a third is too late. -/
theorem run_first_valid_kept :
    let first : Layout := ⟨⟨0x1000, 0x2000⟩, ⟨0x1800, 0x3000⟩, ⟨0x400, 0x900⟩, 0x40,
      ⟨0x4000, 0x5000⟩, 0x7000⟩
    let inverted : Layout := { first with heap := ⟨0x5000, 0x4000⟩ }
    let third : Layout := { first with rodata := ⟨0, 0⟩ }
    let before : List Event := [.classify 0x1900, .install inverted, .install first]
    (empty.run before).2.layout? = some first
    ∧ (empty.run (before ++ [.install inverted])).2.layout? = some first
    ∧ (empty.run (before ++ [.install third, .install inverted])).1[3]?
      = some (.installed (.error .layoutInstalled))
    ∧ first.classify 0x1900 = some .rodata := by
  intro first inverted third before
  obtain ⟨hlayout, hstays, ⟨reply, hreply, hreplies⟩, hclassify⟩ :=
    run_first_valid before [.install inverted] (.install third)
  have hfirst : firstValid before = some first := by rfl
  refine ⟨hlayout.trans hfirst, hstays first (hlayout.trans hfirst), ?_, ?_⟩
  · cases reply with
    | installed result =>
      rw [← hreplies.repeated.2 ⟨by decide, first, by decide, by decide⟩]
      exact hreply
    | contained => exact hreplies.elim
    | classified => exact hreplies.elim
  · refine (hclassify first 0x1900 .rodata).2 ⟨by decide, fun r' h => ?_⟩
    exact absurd h (Nat.not_lt_zero _)

end Installation

end SymWord
