import SymWord.Proofs.OperatorLaws
import SymWord.Solver.Exhaustive

/-!
# Numbered assignments

The assignments of a list of named bitvectors are numbered from zero up to two to the power of all
their bits: the first bitvector takes the lowest bits of the number. Under distinct names each
number belongs to one assignment and each assignment has one number, its `counter`. So going through
the numbers meets every assignment once.
-/

namespace SymWord

namespace Exhaustive

/-- The number of bits of all the bitvectors. -/
def bits : List (String × Nat) → Nat
  | [] => 0
  | (_, w) :: cs => w + bits cs

@[simp] theorem bits_nil : bits [] = 0 := rfl

@[simp] theorem bits_cons (n : String) (w : Nat) (cs : List (String × Nat)) :
    bits ((n, w) :: cs) = w + bits cs := rfl

theorem bits_erase {c : String × Nat} : ∀ {cs : List (String × Nat)}, c ∈ cs →
    bits cs = c.2 + bits (cs.erase c)
  | c' :: cs, hc => by
    by_cases heq : c' = c
    · rw [heq, List.erase_cons_head]
      rfl
    · have ih := bits_erase ((List.mem_cons.1 hc).resolve_left (Ne.symm heq))
      rw [List.erase_cons_tail (by simpa using heq), bits, ih, bits]
      omega

theorem bits_le_of_subset : ∀ {cs cs' : List (String × Nat)}, cs.Nodup → cs ⊆ cs' →
    bits cs ≤ bits cs'
  | [], _, _, _ => Nat.zero_le _
  | c :: cs, cs', hnd, hsub => by
    obtain ⟨hc, hnd⟩ := List.nodup_cons.1 hnd
    obtain ⟨hmem, hsub⟩ := List.cons_subset.1 hsub
    have hrest : cs ⊆ cs'.erase c := fun x hx =>
      (List.mem_erase_of_ne (ne_of_mem_of_not_mem hx hc)).2 (hsub hx)
    have ih := bits_le_of_subset hnd hrest
    rw [bits, bits_erase hmem]
    omega

theorem foldl_add_bits : ∀ (cs : List (String × Nat)) (a : Nat),
    cs.foldl (fun n c => n + c.2) a = a + bits cs
  | [], _ => rfl
  | (n, w) :: cs, a => by rw [List.foldl_cons, foldl_add_bits cs, bits_cons, Nat.add_assoc]

theorem totalBits_eq (cs : List (String × Nat)) : totalBits cs = bits cs := by
  rw [totalBits, foldl_add_bits, Nat.zero_add]

theorem shiftRight_lt {k w b : Nat} (h : k < 2 ^ (w + b)) : k >>> w < 2 ^ b := by
  rw [Nat.shiftRight_eq_div_pow]
  exact Nat.div_lt_of_lt_mul (by rwa [← Nat.pow_add])

/-! A word of `w` bits below the bits of another number. -/

theorem add_mul_lt {v w k b : Nat} (hv : v < 2 ^ w) (hk : k < 2 ^ b) :
    v + 2 ^ w * k < 2 ^ (w + b) := by
  rw [Nat.pow_add]
  calc v + 2 ^ w * k
      < 2 ^ w + 2 ^ w * k := by omega
    _ = 2 ^ w * (k + 1) := by rw [Nat.mul_succ, Nat.add_comm]
    _ ≤ 2 ^ w * 2 ^ b := Nat.mul_le_mul_left _ hk

theorem truncate_add_mul {v w : Nat} (hv : v < 2 ^ w) (k : Nat) :
    Word.truncate (v + 2 ^ w * k) w = v := by
  rw [Word.truncate_eq, Nat.add_mul_mod_self_left, Nat.mod_eq_of_lt hv]

theorem add_mul_shiftRight {v w : Nat} (hv : v < 2 ^ w) (k : Nat) : (v + 2 ^ w * k) >>> w = k := by
  rw [Nat.shiftRight_eq_div_pow, Nat.add_mul_div_left _ _ (Nat.two_pow_pos w),
    Nat.div_eq_of_lt hv, Nat.zero_add]

theorem ne_of_notMem {cs : List (String × Nat)} {c : String × Nat} {n : String}
    (hn : n ∉ cs.map Prod.fst) (hc : c ∈ cs) : c.1 ≠ n := by
  rintro rfl
  exact hn (List.mem_map_of_mem hc)

/-- The value that the assignment with number `k` gives to a name. -/
def word? : List (String × Nat) → Nat → String → Option Value
  | [], _, _ => none
  | (n', w) :: cs, k, n => if n = n' then some ⟨.const k w⟩ else word? cs (k >>> w) n

theorem word?_eq_none : ∀ {cs : List (String × Nat)} {k : Nat} {n : String},
    n ∉ cs.map Prod.fst → word? cs k n = none
  | [], _, _, _ => rfl
  | (n', w) :: cs, k, n, h => by
    rw [List.map_cons, List.mem_cons, not_or] at h
    rw [word?, if_neg h.1, word?_eq_none h.2]

theorem word?_eq_some : ∀ {cs : List (String × Nat)} {k : Nat}, (cs.map Prod.fst).Nodup →
    ∀ c ∈ cs, ∃ v, v < 2 ^ c.2 ∧ word? cs k c.1 = some ⟨.lit v c.2⟩
  | (n', w) :: cs, k, hnd, c, hc => by
    obtain ⟨hn', hnd⟩ := List.nodup_cons.1 hnd
    rcases List.mem_cons.1 hc with rfl | hc
    · exact ⟨Word.truncate k w, Word.truncate_lt k w, by simp [word?, Term.const]⟩
    · obtain ⟨v, hv, hword⟩ := word?_eq_some (k := k >>> w) hnd c hc
      exact ⟨v, hv, by rw [word?, if_neg (ne_of_notMem hn' hc), hword]⟩

/-- The numbers of the assignment are those of its values. -/
theorem lookup_assignment : ∀ (cs : List (String × Nat)) (k : Nat) (n : String),
    Dictionary.lookup n (assignment cs k) = (word? cs k n).bind Value.toNat?
  | [], _, _ => rfl
  | (n', w) :: cs, k, n => by
    rw [assignment, Dictionary.lookup, word?]
    split
    · rfl
    · exact lookup_assignment cs (k >>> w) n

theorem model_eq : ∀ {cs : List (String × Nat)} (k : Nat) (m : Model), (cs.map Prod.fst).Nodup →
    (∀ c ∈ cs, 0 < c.2) →
      ∃ m', model cs k m = .ok m' ∧ ∀ n, m'.get? n = (word? cs k n).or (m.get? n)
  | [], k, m, _, _ => ⟨m, rfl, fun n => by simp [word?]⟩
  | (n', w) :: cs, k, m, hnd, hpos => by
    obtain ⟨hn', hnd⟩ := List.nodup_cons.1 hnd
    have hw : w ≠ 0 := Nat.ne_of_gt (hpos (n', w) List.mem_cons_self)
    obtain ⟨m', hm', hget⟩ := model_eq (k >>> w) (m.insert n' ⟨.const k w⟩) hnd
      fun c hc => hpos c (List.mem_cons_of_mem _ hc)
    refine ⟨m', ?_, fun n => ?_⟩
    · rw [model, Value.ofNat, if_neg hw]
      exact hm'
    · rw [hget n, word?]
      by_cases hn : n = n'
      · subst hn
        rw [if_pos rfl, word?_eq_none hn', Option.none_or, Dictionary.insert,
          Dictionary.get?_upsert_self, Option.some_or]
      · rw [if_neg hn, Dictionary.insert, Dictionary.get?_upsert_ne _ _ hn]

/-! ## Models and their numbers -/

/-- The model with number `k`. -/
def numbered (cs : List (String × Nat)) (k : Nat) : Model :=
  (model cs k .empty).toOption.getD .empty

section

variable {cs : List (String × Nat)} (hnd : (cs.map Prod.fst).Nodup) (hpos : ∀ c ∈ cs, 0 < c.2)

include hnd hpos

theorem model_empty (k : Nat) : model cs k .empty = .ok (numbered cs k) := by
  obtain ⟨m, hm, -⟩ := model_eq k .empty hnd hpos
  rw [numbered, hm]
  rfl

theorem get?_numbered (k : Nat) (n : String) : (numbered cs k).get? n = word? cs k n := by
  obtain ⟨m, hm, hget⟩ := model_eq k .empty hnd hpos
  rw [numbered, hm]
  exact (hget n).trans (by simp)

theorem bindings_numbered (k : Nat) : (numbered cs k).bindings = bindings (assignment cs k) := by
  funext n
  rw [Model.bindings, get?_numbered hnd hpos, bindings, lookup_assignment]

end

/-- The model gives a word to each of the bitvectors, and nothing else. -/
structure Assigns (cs : List (String × Nat)) (m : Model) : Prop where
  word : ∀ c ∈ cs, ∃ v, v < 2 ^ c.2 ∧ m.get? c.1 = some ⟨.lit v c.2⟩
  only : ∀ n, n ∉ cs.map Prod.fst → m.get? n = none

/-- The number of an assignment: the first bitvector takes the lowest bits. -/
def counter : List (String × Nat) → Bindings → Nat
  | [], _ => 0
  | (n, w) :: cs, b => (b n).getD 0 + 2 ^ w * counter cs b

theorem counter_congr {b b' : Bindings} : ∀ {cs : List (String × Nat)},
    (∀ c ∈ cs, b c.1 = b' c.1) → counter cs b = counter cs b'
  | [], _ => rfl
  | (n, w) :: cs, h => by
    rw [counter, counter, h (n, w) List.mem_cons_self,
      counter_congr fun c hc => h c (List.mem_cons_of_mem _ hc)]

theorem counter_assignment : ∀ {cs : List (String × Nat)} {k : Nat}, (cs.map Prod.fst).Nodup →
    k < 2 ^ bits cs → counter cs (bindings (assignment cs k)) = k
  | [], k, _, hk => by
    simp only [bits_nil, Nat.pow_zero] at hk
    rw [counter]
    omega
  | (n, w) :: cs, k, hnd, hk => by
    obtain ⟨hn, hnd⟩ := List.nodup_cons.1 hnd
    rw [bits_cons] at hk
    have hhead : bindings (assignment ((n, w) :: cs) k) n = some (k % 2 ^ w) := by
      simp [bindings, assignment, Dictionary.lookup, Word.truncate_eq]
    have htail : counter cs (bindings (assignment ((n, w) :: cs) k))
        = counter cs (bindings (assignment cs (k >>> w))) := by
      refine counter_congr fun c hc => ?_
      simp [bindings, assignment, Dictionary.lookup, ne_of_notMem hn hc]
    rw [counter, hhead, htail, counter_assignment hnd (shiftRight_lt hk),
      Nat.shiftRight_eq_div_pow, Option.getD_some, Nat.mod_add_div]

theorem counter_lt : ∀ {cs : List (String × Nat)} {m : Model},
    (∀ c ∈ cs, ∃ v, v < 2 ^ c.2 ∧ m.get? c.1 = some ⟨.lit v c.2⟩) →
      counter cs m.bindings < 2 ^ bits cs
  | [], _, _ => by simp [counter]
  | (n, w) :: cs, m, h => by
    obtain ⟨v, hv, hget⟩ := h (n, w) List.mem_cons_self
    have ih := counter_lt (m := m) fun c hc => h c (List.mem_cons_of_mem _ hc)
    have hb : m.bindings n = some v := by simp [Model.bindings, hget, Value.toNat?, Term.value?]
    rw [counter, hb, Option.getD_some, bits_cons]
    exact add_mul_lt hv ih

theorem word?_counter : ∀ {cs : List (String × Nat)} {m : Model} {n : String},
    (∀ c ∈ cs, ∃ v, v < 2 ^ c.2 ∧ m.get? c.1 = some ⟨.lit v c.2⟩) → n ∈ cs.map Prod.fst →
      word? cs (counter cs m.bindings) n = m.get? n
  | (n', w) :: cs, m, n, h, hn => by
    obtain ⟨v, hv, hget⟩ := h (n', w) List.mem_cons_self
    have hb : m.bindings n' = some v := by simp [Model.bindings, hget, Value.toNat?, Term.value?]
    simp only at hv hget
    rw [counter, hb, Option.getD_some, word?]
    split
    · rename_i he
      rw [he, hget, Term.const, truncate_add_mul hv]
    · rename_i hne
      rw [add_mul_shiftRight hv]
      refine word?_counter (fun c hc => h c (List.mem_cons_of_mem _ hc)) ?_
      rw [List.map_cons, List.mem_cons] at hn
      exact hn.resolve_left hne

/-- Any numbers for the names, reduced to their widths, are some assignment. -/
theorem exists_assignment (f : String → Nat) : ∀ {cs : List (String × Nat)},
    (cs.map Prod.fst).Nodup → ∃ k, k < 2 ^ bits cs ∧
      ∀ c ∈ cs, bindings (assignment cs k) c.1 = some (Word.truncate (f c.1) c.2)
  | [], _ => ⟨0, by simp, by simp⟩
  | (n, w) :: cs, hnd => by
    obtain ⟨hn, hnd⟩ := List.nodup_cons.1 hnd
    obtain ⟨k, hk, hrest⟩ := exists_assignment f hnd
    have hv := Word.truncate_lt (f n) w
    refine ⟨_, add_mul_lt hv hk, fun c hc => ?_⟩
    rw [bindings, assignment, truncate_add_mul hv, add_mul_shiftRight hv, Dictionary.lookup]
    rcases List.mem_cons.1 hc with rfl | hc
    · rw [if_pos rfl]
    · rw [if_neg (ne_of_notMem hn hc)]
      exact hrest c hc

theorem assigns_numbered {cs : List (String × Nat)} (hnd : (cs.map Prod.fst).Nodup)
    (hpos : ∀ c ∈ cs, 0 < c.2) (k : Nat) : Assigns cs (numbered cs k) where
  word c hc := by
    rw [get?_numbered hnd hpos]
    exact word?_eq_some hnd c hc
  only n hn := by rw [get?_numbered hnd hpos, word?_eq_none hn]

theorem numbered_counter {cs : List (String × Nat)} {m : Model} (hnd : (cs.map Prod.fst).Nodup)
    (hpos : ∀ c ∈ cs, 0 < c.2) (h : Assigns cs m) : numbered cs (counter cs m.bindings) = m := by
  refine Dictionary.eq_of_get?_eq fun n => ?_
  rw [get?_numbered hnd hpos]
  by_cases hn : n ∈ cs.map Prod.fst
  · exact word?_counter h.word hn
  · rw [word?_eq_none hn, h.only n hn]

theorem counter_numbered {cs : List (String × Nat)} {k : Nat} (hnd : (cs.map Prod.fst).Nodup)
    (hpos : ∀ c ∈ cs, 0 < c.2) (hk : k < 2 ^ bits cs) :
    counter cs (numbered cs k).bindings = k := by
  rw [bindings_numbered hnd hpos, counter_assignment hnd hk]

end Exhaustive

end SymWord
