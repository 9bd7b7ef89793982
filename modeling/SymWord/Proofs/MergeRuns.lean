import SymWord.Proofs.CarriedNames
import SymWord.Proofs.FreshNames
import SymWord.Proofs.PathMerge

/-!
# Merges in a run

A run asks the supply for symbols, computes with the values that it has, and merges some of them. A
merge that widens takes its unknown from the same counter as the general symbols.

Every name that a value of the run can hold has been used before (`Taken`): it comes from a caller
and has no `#`, or its stem is that of a memory cell, of the output stream or of a general number
drawn so far. One move keeps this up (`Accounts.step`), whatever it computes, since results have no
names of their own. The number that comes next is not among those drawn, so an unknown gets a name
that stands in no earlier value (`merge_in_run`).
-/

namespace SymWord

namespace Supply

/-! ## Moves -/

/-- What a run can do next. -/
inductive Move where
  | allocate (a : Allocation)
  | endAddress (w : Nat)
  | bottom (w : Nat)
  | call (c : AlgebraCall)
  | merge (known : List Nat) (current arriving : Value)

/-- The values that a move works on. -/
def Move.args : Move → List Value
  | allocate _ | endAddress _ | bottom _ => []
  | call c => c.args
  | merge _ current arriving => [current, arriving]

instance (known : List Nat) (current arriving : Value) :
    Decidable (Widens known current arriving) :=
  match h : arriving.toNat? with
  | none => isFalse fun ⟨n, hn, _⟩ => by
    rw [h] at hn
    cases hn
  | some n => decidable_of_iff (n ∉ known ∧ current.toNat? ≠ some n)
    ⟨fun hn => ⟨n, h, hn⟩, fun ⟨m, hm, hn⟩ => by
      cases h.symm.trans hm
      exact hn⟩

/-- The move takes the number of a general symbol. -/
def Move.draws : Move → Bool
  | allocate a => a.origin == .general
  | merge known current arriving => decide (Widens known current arriving)
  | endAddress _ | bottom _ | call _ => false

def perform (s : Supply) : Move → Except Error Value × Supply
  | .allocate a => s.allocate a
  | .endAddress w => (endAddress w, s)
  | .bottom w => (bottom w, s)
  | .call c => (c.run, s)
  | .merge known current arriving => s.merge known current arriving

/-- The value of an answer that has one. -/
def given : Except Error Value → List Value
  | .ok v => [v]
  | .error _ => []

/-- A run from `s` by its moves, with the supply and the values that it leaves, all with the latest
first. A move works on numbers and on values that the run has already given. -/
inductive Run (s : Supply) : List Move → Supply → List Value → Prop
  | start : Run s [] s []
  | step {ms : List Move} {s' : Supply} {vs : List Value} (h : Run s ms s' vs) (m : Move)
      (hargs : ∀ v ∈ m.args, v ∈ vs ∨ v.isConcrete = true) :
      Run s (m :: ms) (s'.perform m).2 (given (s'.perform m).1 ++ vs)

section

variable {s s' : Supply} {m : Move}

theorem perform_scope : (s.perform m).2.scope = s.scope := by
  cases m with
  | allocate a => exact allocate_scope
  | endAddress w | bottom w | call c => rfl
  | merge known current arriving =>
    by_cases h : Widens known current arriving
    · rw [perform, merge_of_widens h]
      rfl
    · rw [perform, merge_of_not_widens h]

theorem place_add_zero (s : Supply) :
    place s.nextGeneral = (place s.nextGeneral + 0) % (Counter.limit - 1) := by
  rw [Nat.add_zero, Nat.mod_eq_of_lt (place_lt s.nextGeneral_ne_skipped)]

/-- Each number drawn is one place after the one before it. -/
theorem place_perform : place (s.perform m).2.nextGeneral
    = (place s.nextGeneral + if m.draws then 1 else 0) % (Counter.limit - 1) := by
  cases m with
  | allocate a =>
    simp only [Move.draws, beq_iff_eq]
    exact place_allocate
  | endAddress w | bottom w | call c => exact place_add_zero s
  | merge known current arriving =>
    by_cases h : Widens known current arriving
    · rw [perform, merge_of_widens h, Move.draws, decide_eq_true h]
      exact place_nextGeneral s arriving.width
    · rw [perform, merge_of_not_widens h, Move.draws, decide_eq_false h]
      exact place_add_zero s

end

/-! ## Names in use -/

/-- The name comes from a caller, or its stem is in use once `k` general numbers have been drawn
from the supply. -/
def Taken (s : Supply) (k : Nat) (name : String) : Prop :=
  '#' ∉ name.toList ∨ ∃ st : Stem, name = s.qualify st.text ∧
    ∀ n, st = .general n → ∃ i < k, place n = (place s.nextGeneral + i) % (Counter.limit - 1)

theorem Taken.mono {s : Supply} {k k' : Nat} {name : String} (h : s.Taken k name) (hk : k ≤ k') :
    s.Taken k' name := by
  refine h.imp_right fun ⟨st, hname, hst⟩ => ⟨st, hname, fun n hn => ?_⟩
  obtain ⟨i, hi, hplace⟩ := hst n hn
  exact ⟨i, Nat.lt_of_lt_of_le hi hk, hplace⟩

/-- The supply has come from `s` to `s'` by drawing `k` general numbers, and the values have no name
that is not in use. -/
structure Accounts (s : Supply) (k : Nat) (s' : Supply) (vs : List Value) : Prop where
  scope_eq : s'.scope = s.scope
  place_eq : place s'.nextGeneral = (place s.nextGeneral + k) % (Counter.limit - 1)
  names : ∀ v ∈ vs, v.term.NamedBy (s.Taken k)

namespace Accounts

variable {s s' : Supply} {k : Nat} {vs : List Value} {v : Value}

theorem start (s : Supply) : Accounts s 0 s [] where
  scope_eq := rfl
  place_eq := place_add_zero s
  names := by simp

theorem generalName_eq (h : Accounts s k s' vs) :
    s'.generalName s'.nextGeneral.val = s.qualify (Stem.general s'.nextGeneral).text :=
  qualify_congr h.scope_eq _

/-- The name that comes next is in use once its number is drawn. -/
theorem taken_next (h : Accounts s k s' vs) :
    s.Taken (k + 1) (s'.generalName s'.nextGeneral.val) := by
  refine .inr ⟨.general s'.nextGeneral, h.generalName_eq, fun n hn => ?_⟩
  cases hn
  exact ⟨k, Nat.lt_succ_self k, h.place_eq⟩

/-- Until all numbers are drawn, the name that comes next is not in use. -/
theorem not_taken_next (h : Accounts s k s' vs) (hk : k < Counter.limit - 1) :
    ¬s.Taken k (s'.generalName s'.nextGeneral.val) := by
  rw [h.generalName_eq]
  rintro (hsigil | ⟨st, hname, hst⟩)
  · rw [toList_qualify] at hsigil
    exact hsigil (List.mem_append_right _ (Stem.general s'.nextGeneral).sigil_mem_text)
  · have hgeneral := Stem.text_injective (s.qualify_injective hname)
    obtain ⟨i, hi, hplace⟩ := hst _ hgeneral.symm
    have hlt := place_lt s.nextGeneral_ne_skipped
    rw [h.place_eq] at hplace
    simp only [Counter.limit] at *
    omega

theorem namedBy_symbol {p : String → Prop} {name : String} {w : Nat} (hp : p name)
    (h : Value.symbol name w = .ok v) : v.term.NamedBy p := by
  obtain ⟨-, rfl⟩ := Value.eq_of_nonzero h
  exact Term.namedBy_sym.2 hp

theorem allocate (h : Accounts s k s' vs) {a : Allocation} (hv : (s'.allocate a).1 = .ok v) :
    v.term.NamedBy (s.Taken (k + if a.origin = .general then 1 else 0)) := by
  have hmem : ∀ d ∈ v.term.mentions, d.name ∈ namesIn (s'.allocate a).1 := by
    rw [hv]
    exact fun d hd => List.mem_map.2 ⟨d, hd, rfl⟩
  have hstem : ∀ st, s'.stem? a.origin = some st → ∀ d ∈ v.term.mentions,
      d.name = s.qualify st.text := fun st hst d hd => by
    rw [List.mem_singleton.1 (namesIn_allocate_subset hst (hmem d hd)), qualify_congr h.scope_eq]
  intro d hd
  cases ho : a.origin with
  | general =>
    rw [hstem _ (by rw [ho, stem?]) d hd, if_pos rfl, ← h.generalName_eq]
    exact h.taken_next
  | memory | output => exact .inr ⟨_, hstem _ (by rw [ho, stem?]) d hd, by rintro n ⟨⟩⟩
  | segment name | named name => exact .inl (sigil_notMem_of_given (by rw [ho]; rfl) (hmem d hd))

theorem answer (h : Accounts s k s' vs) {m : Move}
    (hargs : ∀ v ∈ m.args, v ∈ vs ∨ v.isConcrete = true) (hv : (s'.perform m).1 = .ok v) :
    v.term.NamedBy (s.Taken (k + if m.draws then 1 else 0)) := by
  have hmono : ∀ u : Value, u.term.NamedBy (s.Taken k) →
      u.term.NamedBy (s.Taken (k + if m.draws then 1 else 0)) :=
    fun u hu d hd => (hu d hd).mono (Nat.le_add_right _ _)
  have harg : ∀ u ∈ m.args, u.term.NamedBy (s.Taken k) := by
    intro u hu
    rcases hargs u hu with hu | hu
    · exact h.names u hu
    · obtain ⟨n, hn⟩ := Term.eq_lit_of_isLit hu
      rw [hn]
      exact Term.namedBy_lit
  cases m with
  | allocate a =>
    simp only [Move.draws, beq_iff_eq]
    exact h.allocate hv
  | endAddress w => exact namedBy_symbol (.inl (by decide)) hv
  | bottom w => exact namedBy_symbol (.inl (by decide)) hv
  | call c => exact hmono v (c.run_namedBy harg hv)
  | merge known current arriving =>
    by_cases hwidens : Widens known current arriving
    · rw [perform, merge_of_widens hwidens] at hv
      rw [Move.draws, decide_eq_true hwidens]
      exact namedBy_symbol h.taken_next hv
    · rw [perform, merge_of_not_widens hwidens] at hv
      cases hv
      exact hmono _ (harg _ (by simp [Move.args]))

theorem step (h : Accounts s k s' vs) {m : Move}
    (hargs : ∀ v ∈ m.args, v ∈ vs ∨ v.isConcrete = true) :
    Accounts s (k + if m.draws then 1 else 0) (s'.perform m).2
      (given (s'.perform m).1 ++ vs) where
  scope_eq := by rw [perform_scope, h.scope_eq]
  place_eq := by rw [place_perform, h.place_eq, Nat.mod_add_mod, Nat.add_assoc]
  names := by
    intro v hv
    rcases List.mem_append.1 hv with hv | hv
    · cases hanswer : (s'.perform m).1 with
      | error e =>
        rw [hanswer] at hv
        cases hv
      | ok u =>
        rw [hanswer] at hv
        rw [List.mem_singleton.1 hv]
        exact h.answer hargs hanswer
    · exact fun d hd => (h.names v hv d hd).mono (Nat.le_add_right _ _)

end Accounts

theorem Run.accounts {s s' : Supply} {ms : List Move} {vs : List Value} (h : Run s ms s' vs) :
    Accounts s (ms.countP Move.draws) s' vs := by
  induction h with
  | start => exact .start s
  | step h m hargs ih =>
    rw [List.countP_cons]
    exact ih.step hargs

/-- In a run that draws fewer general numbers than there are, a merge widens exactly if a number
arrives that is neither a known address nor the current one. It then gives an unknown of the same
width, with a name that no value of the run has so far, and changes nothing but the general counter.
Otherwise it gives what arrives, and the supply stays as it is. -/
theorem merge_in_run {s s' : Supply} {ms : List Move} {vs : List Value} (h : Run s ms s' vs)
    (hcount : ms.countP Move.draws < Counter.limit - 1) (known : List Nat) (current : Value)
    {arriving : Value} (hw : 0 < arriving.width) :
    (Widens known current arriving → ∃ name,
      s'.merge known current arriving
          = (.ok ⟨.sym name arriving.width⟩, { s' with general := s'.nextGeneral.next })
        ∧ ∀ v ∈ vs, ∀ d ∈ v.term.mentions, d.name ≠ name)
    ∧ (¬Widens known current arriving → s'.merge known current arriving = (.ok arriving, s')) := by
  refine ⟨fun hwidens => ⟨s'.generalName s'.nextGeneral.val, ?_, fun v hv d hd hname => ?_⟩,
    merge_of_not_widens⟩
  · rw [merge_of_widens hwidens, fresh, Value.symbol, if_neg (Nat.ne_of_gt hw)]
  · have htaken := h.accounts.names v hv d hd
    rw [hname] at htaken
    exact h.accounts.not_taken_next hcount htaken

/-- A symbol, a sum with it and a merge that widens come before the merge, and the number that is
left out comes between them. -/
theorem merge_in_run_skipping :
    let s : Supply := ⟨8, some "w", ⟨22, by decide⟩, .zero, .zero⟩
    let x : Value := ⟨.sym "w:v#w" 8⟩
    let seven : Value := ⟨.lit 7 8⟩
    let ms : List Move := [.merge [5] x seven, .call (.operation (.binary .add x seven)),
      .allocate ⟨.general, none⟩]
    ∃ s' vs, Run s ms s' vs ∧ ms.countP Move.draws < Counter.limit - 1
      ∧ vs = [⟨.sym "w:v#y" 8⟩, ⟨.binary .add (.sym "w:v#w" 8) (.lit 7 8)⟩, x]
      ∧ Widens [] x seven ∧ ∃ name, (s'.merge [] x seven).1 = .ok ⟨.sym name 8⟩
        ∧ ∀ v ∈ vs, ∀ d ∈ v.term.mentions, d.name ≠ name := by
  intro s x seven ms
  have hrun := ((Run.start (s := s)).step (.allocate ⟨.general, none⟩) (by simp [Move.args])).step
    (.call (.operation (.binary .add x seven))) (by decide +kernel)
  have hrun' := hrun.step (.merge [5] x seven) (by decide +kernel)
  have hcount : ms.countP Move.draws < Counter.limit - 1 := by decide +kernel
  have hwidens : Widens [] x seven := by decide
  obtain ⟨name, hmerge, hfresh⟩ := (merge_in_run hrun' hcount [] x (by decide)).1 hwidens
  exact ⟨_, _, hrun', hcount, by decide +kernel, hwidens, name, by rw [hmerge]; rfl, hfresh⟩

end Supply

end SymWord
