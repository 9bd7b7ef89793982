import SymWord.Proofs.CanonicalValues
import SymWord.Supply

/-!
# What a merge covers

A value covers a number when it evaluates to it under some bindings. A merge always covers what
arrives: it is either the arriving value itself or an unknown of its width, which covers every word.

What was there is covered when a number arrives that is not a known address. A symbolic value and a
known address are kept as they arrive, by the rules of the merge, and a kept value stands for the
other path only where it covers its number by itself (`merge_covers_iff`).
-/

namespace SymWord

/-- The value evaluates to the number under some bindings. -/
def Value.Covers (v : Value) (n : Nat) : Prop := ∃ b, v.term.evaluate b = some n

theorem Value.covers_sym {name : String} {n w : Nat} (h : n < 2 ^ w) :
    (⟨.sym name w⟩ : Value).Covers n :=
  ⟨fun _ => some n, by rw [Term.evaluate, Option.map_some, Word.truncate_of_lt h]⟩

theorem Value.evaluate_of_toNat? {v : Value} {n : Nat} (h : v.toNat? = some n) (b : Bindings) :
    v.term.evaluate b = some n := by
  rw [Value.term_of_toNat? h, Term.evaluate]

namespace Supply

variable {s : Supply} {known : List Nat} {current arriving : Value}

/-- What arrives is replaced by an unknown. -/
def Widens (known : List Nat) (current arriving : Value) : Prop :=
  ∃ n, arriving.toNat? = some n ∧ n ∉ known ∧ current.toNat? ≠ some n

theorem merge_of_widens (h : Widens known current arriving) :
    s.merge known current arriving = s.fresh arriving.width := by
  obtain ⟨n, hn, hknown, hne⟩ := h
  simp [merge, hn, hknown, hne]

theorem merge_of_not_widens (h : ¬Widens known current arriving) :
    s.merge known current arriving = (.ok arriving, s) := by
  unfold merge
  split
  · rfl
  · rename_i n hn
    rw [if_pos]
    by_cases hknown : n ∈ known
    · exact .inl hknown
    · exact .inr (Decidable.byContradiction fun hne => h ⟨n, hn, hknown, hne⟩)

/-- A merge succeeds and covers what arrives. It covers what was there exactly if a number arrives
that is not a known address, or if the arriving value covers it by itself. -/
theorem merge_covers_iff (s : Supply) (known : List Nat) (hcurrent : current.term.WellFormed)
    (harriving : arriving.term.WellFormed) (hwidth : current.width = arriving.width)
    {b : Bindings} {x y : Nat} (hx : current.term.evaluate b = some x)
    (hy : arriving.term.evaluate b = some y) :
    ∃ v, (s.merge known current arriving).1 = .ok v ∧ v.Covers y
      ∧ (v.Covers x ↔ (∃ n, arriving.toNat? = some n ∧ n ∉ known) ∨ arriving.Covers x) := by
  by_cases h : Widens known current arriving
  · have hw : arriving.width ≠ 0 := Nat.ne_of_gt harriving.width_pos
    have hxlt : x < 2 ^ arriving.width := hwidth ▸ Term.evaluate_lt hcurrent hx
    have hylt : y < 2 ^ arriving.width := Term.evaluate_lt harriving hy
    refine ⟨⟨.sym (s.generalName s.nextGeneral.val) arriving.width⟩, ?_, Value.covers_sym hylt, ?_⟩
    · rw [merge_of_widens h, fresh, Value.symbol, if_neg hw]
    · obtain ⟨n, hn, hknown, -⟩ := h
      exact ⟨fun _ => .inl ⟨n, hn, hknown⟩, fun _ => Value.covers_sym hxlt⟩
  · refine ⟨arriving, by rw [merge_of_not_widens h], ⟨b, hy⟩, .inr, ?_⟩
    rintro (⟨n, hn, hknown⟩ | hcovers)
    · -- Kept without being known, the arriving number is the current one.
      have hcur : current.toNat? = some n :=
        Decidable.byContradiction fun hne => h ⟨n, hn, hknown, hne⟩
      rw [Value.evaluate_of_toNat? hcur] at hx
      cases hx
      exact ⟨b, Value.evaluate_of_toNat? hn b⟩
    · exact hcovers

/-- Two numbers that differ become an unknown. -/
theorem merge_covers_iff_numbers :
    let current : Value := ⟨.lit 5 64⟩
    let arriving : Value := ⟨.lit 7 64⟩
    current.term.WellFormed ∧ arriving.term.WellFormed ∧ current.width = arriving.width
      ∧ ∃ v, ((default : Supply).merge [0x401000] current arriving).1 = .ok v ∧ v.Covers 7
        ∧ v.Covers 5 := by
  intro current arriving
  have hcurrent : current.term.WellFormed := by decide
  have harriving : arriving.term.WellFormed := by decide
  obtain ⟨v, hv, hy, hx⟩ :=
    merge_covers_iff default [0x401000] hcurrent harriving rfl (b := fun _ => none) rfl rfl
  exact ⟨hcurrent, harriving, rfl, v, hv, hy, hx.2 (.inl ⟨7, rfl, by decide⟩)⟩

/-- A term that arrives is kept even where it cannot have the number of the other path. -/
theorem merge_loses_number :
    let s : Supply := default
    let current : Value := ⟨.lit 0x100 16⟩
    let arriving : Value := ⟨.zeroExtend 8 (.sym "y" 8)⟩
    let b : Bindings := fun _ => some 0
    current.Canonical ∧ arriving.Canonical ∧ current.width = arriving.width
      ∧ (∀ d ∈ current.term.mentions ++ arriving.term.mentions,
        d.name ≠ s.generalName s.nextGeneral.val)
      ∧ current.term.evaluate b = some 0x100 ∧ arriving.term.evaluate b = some 0
      ∧ ∀ v, (s.merge [] current arriving).1 = .ok v → ¬v.Covers 0x100 := by
  intro s current arriving b
  refine ⟨by decide, by decide, by decide, by decide +kernel, rfl, by decide, ?_⟩
  rintro v hv ⟨b', hb'⟩
  cases hv
  have hlt : 0x100 < 2 ^ 8 := Term.evaluate_lt (s := .sym "y" 8) (by decide) hb'
  exact absurd hlt (by decide)

end Supply

end SymWord
