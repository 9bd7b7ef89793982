import Mathlib.Data.Nat.ModEq
import SymWord.Proofs.FreshNames
import SymWord.Proofs.OperatorLaws

/-!
# Words of the output stream

The words of the output stream are numbered by one counter, whatever their widths. A word is the
root of the stream plus its number, and the number is put in as a literal of the word's width. So
two words of one width are the same exactly if their numbers agree in that many bits
(`word_eq_iff`).

The counter runs on when the other two are started again. Until it has gone round itself, words of
64 and more bits are all different, and narrower ones are until there are more words than literals
(`words_nodup_iff`).
-/

namespace SymWord

namespace Supply

/-! ## One word -/

/-- The word of the output stream with a given number. -/
def word (s : Supply) (w n : Nat) : Value :=
  ⟨.mkBinary .add (.sym s.outputRoot w) (.const n w)⟩

theorem word_term (s : Supply) (w n : Nat) : (s.word w n).term
    = if n % 2 ^ w = 0 then .sym s.outputRoot w
      else .binary .add (.sym s.outputRoot w) (.lit (n % 2 ^ w) w) := by
  rw [word, Term.const, Word.truncate_eq]
  split <;> simp [Term.mkBinary, Term.mkBinaryLit, Term.trivial?, *]

theorem word_eq_iff {s : Supply} {w m n : Nat} :
    s.word w m = s.word w n ↔ m % 2 ^ w = n % 2 ^ w := by
  constructor
  · intro h
    have hterm := congrArg Value.term h
    rw [word_term, word_term] at hterm
    split at hterm <;> split at hterm <;> simp_all
  · intro h
    rw [word, word, Term.const, Term.const, Word.truncate_eq, Word.truncate_eq, h]

theorem word_congr {s s' : Supply} (h : s.scope = s'.scope) (w n : Nat) :
    s.word w n = s'.word w n := by
  rw [word, word, outputRoot, outputRoot, qualify_congr h]

/-- Fewer numbers than the limit agree in their low bits also after going round with the counter. -/
theorem counter_mod_eq_iff {c i j w : Nat} (hi : i < Counter.limit) (hj : j < Counter.limit) :
    (c + i) % Counter.limit % 2 ^ w = (c + j) % Counter.limit % 2 ^ w ↔ i % 2 ^ w = j % 2 ^ w := by
  have hlimit : Counter.limit = 2 ^ 64 := rfl
  have hcancel : ∀ k, (c + i) % k = (c + j) % k ↔ i % k = j % k :=
    fun k => Nat.ModEq.add_iff_left (n := k) rfl
  rw [hlimit] at hi hj ⊢
  rcases Nat.le_total w 64 with hw | hw
  · have hdvd : 2 ^ w ∣ 2 ^ 64 := Nat.pow_dvd_pow 2 hw
    rw [Nat.mod_mod_of_dvd _ hdvd, Nat.mod_mod_of_dvd _ hdvd, hcancel]
  · have hle : 2 ^ 64 ≤ 2 ^ w := Nat.pow_le_pow_right (by decide) hw
    have hlt : ∀ n, n % 2 ^ 64 < 2 ^ w := fun n =>
      Nat.lt_of_lt_of_le (Nat.mod_lt n (Nat.two_pow_pos 64)) hle
    rw [Nat.mod_eq_of_lt (hlt _), Nat.mod_eq_of_lt (hlt _), hcancel, Nat.mod_eq_of_lt hi,
      Nat.mod_eq_of_lt hj, Nat.mod_eq_of_lt (Nat.lt_of_lt_of_le hi hle),
      Nat.mod_eq_of_lt (Nat.lt_of_lt_of_le hj hle)]

/-! ## The words of a run -/

/-- The answers for words of the output stream, each with the width of the word. -/
def stream (width : Nat) : List (Allocation × Except Error Value) →
    List (Nat × Except Error Value)
  | [] => []
  | (a, r) :: l =>
    if a.origin = .output then (a.width?.getD width, r) :: stream width l else stream width l

/-- The answers of one width, each with its number in the stream. -/
def wordsOf (w : Nat) (l : List (Nat × Except Error Value)) : List (Except Error Value × Nat) :=
  (l.zipIdx.filter (·.1.1 == w)).map fun x => (x.1.2, x.2)

theorem output_allocate {s : Supply} {a : Allocation} (h : a.origin ≠ .output) :
    (s.allocate a).2.output = s.output := by
  unfold allocate
  split <;> first | contradiction | rfl

theorem allocate_output {s : Supply} {a : Allocation} (h : a.origin = .output) :
    s.allocate a = (.ok (s.word (a.width?.getD s.width) s.output.val),
      { s with output := s.output.next }) := by
  rw [allocate, h]
  rfl

/-- The counter stands at `c + n` when the word numbered `n` comes next. -/
theorem answer_of_mem_stream {c : Nat} : ∀ (as : List Action) {s : Supply} {n : Nat},
    .resetOutput ∉ as → s.output.val = (c + n) % Counter.limit →
      ∀ x ∈ (stream s.width (s.run as)).zipIdx n,
        x.1.2 = .ok (s.word x.1.1 ((c + x.2) % Counter.limit))
  | [], _, _, _, _, x, hx => by simp [run, stream] at hx
  | .allocate a :: as, s, n, hkeep, hcount, x, hx => by
    have hkeep' : .resetOutput ∉ as := fun h => hkeep (List.mem_cons_of_mem _ h)
    have hword := fun w n => word_congr (allocate_scope (s := s) (a := a)) w n
    rw [run, stream] at hx
    split at hx
    · rename_i ho
      rw [List.zipIdx_cons] at hx
      rcases List.mem_cons.1 hx with rfl | hx
      · rw [allocate_output ho, hcount]
      · have hnext : (s.allocate a).2.output.val = (c + (n + 1)) % Counter.limit := by
          rw [allocate_output ho]
          show (s.output.val + 1) % Counter.limit = _
          rw [hcount, Nat.mod_add_mod, Nat.add_assoc]
        rw [← allocate_width (s := s) (a := a)] at hx
        rw [answer_of_mem_stream as hkeep' hnext x hx, hword]
    · rename_i ho
      rw [← allocate_width (s := s) (a := a)] at hx
      rw [answer_of_mem_stream as hkeep' (by rw [output_allocate ho, hcount]) x hx, hword]
  | .reset :: as, s, n, hkeep, hcount, x, hx =>
    answer_of_mem_stream as (s := s.reset) (fun h => hkeep (List.mem_cons_of_mem _ h)) hcount x hx
  | .resetOutput :: as, _, _, hkeep, _, _, _ => absurd List.mem_cons_self hkeep

theorem mem_wordsOf {w : Nat} {l : List (Nat × Except Error Value)} {y : Except Error Value × Nat} :
    y ∈ wordsOf w l ↔ ((w, y.1), y.2) ∈ l.zipIdx := by
  rw [wordsOf, List.mem_map]
  constructor
  · rintro ⟨x, hx, rfl⟩
    obtain ⟨hx, hw⟩ := List.mem_filter.1 hx
    rwa [← beq_iff_eq.1 hw]
  · intro hy
    exact ⟨_, List.mem_filter.2 ⟨hy, beq_self_eq_true w⟩, rfl⟩

theorem lt_length_of_mem_wordsOf {w : Nat} {l : List (Nat × Except Error Value)}
    {y : Except Error Value × Nat} (h : y ∈ wordsOf w l) : y.2 < l.length := by
  simpa using List.snd_lt_of_mem_zipIdx (mem_wordsOf.1 h)

/-- No two words have the same number. -/
theorem nodup_numbers (w : Nat) (l : List (Nat × Except Error Value)) :
    ((wordsOf w l).map Prod.snd).Nodup := by
  have hsub : ((l.zipIdx.filter (·.1.1 == w)).map Prod.snd).Sublist (l.zipIdx.map Prod.snd) :=
    List.filter_sublist.map _
  rw [wordsOf, List.map_map]
  refine hsub.nodup ?_
  rw [List.zipIdx_map_snd]
  exact List.nodup_range'

/-- In a run that does not start the stream again, words of one width are all different exactly if
their numbers are in that many bits. They are if the run has no more words than there are literals
of the width. -/
theorem words_nodup_iff {s : Supply} {as : List Action} (hkeep : .resetOutput ∉ as)
    (hcount : (stream s.width (s.run as)).length ≤ Counter.limit) (w : Nat) :
    let words := wordsOf w (stream s.width (s.run as))
    ((words.map Prod.fst).Nodup ↔ (words.map (·.2 % 2 ^ w)).Nodup)
      ∧ ((stream s.width (s.run as)).length ≤ 2 ^ w → (words.map Prod.fst).Nodup) := by
  intro words
  have hanswer : ∀ y ∈ words, y.1 = .ok (s.word w ((s.output.val + y.2) % Counter.limit)) :=
    fun y hy => answer_of_mem_stream as hkeep (Nat.mod_eq_of_lt s.output.isLt).symm _
      (mem_wordsOf.1 hy)
  have hlt : ∀ y ∈ words, y.2 < (stream s.width (s.run as)).length :=
    fun y hy => lt_length_of_mem_wordsOf hy
  have hiff : (words.map Prod.fst).Nodup ↔ (words.map (·.2 % 2 ^ w)).Nodup := by
    rw [List.Nodup, List.Nodup, List.pairwise_map, List.pairwise_map]
    refine List.Pairwise.iff_of_mem fun {x y} hx hy => not_congr ?_
    rw [hanswer x hx, hanswer y hy, Except.ok.injEq, word_eq_iff]
    exact counter_mod_eq_iff (Nat.lt_of_lt_of_le (hlt x hx) hcount)
      (Nat.lt_of_lt_of_le (hlt y hy) hcount)
  refine ⟨hiff, fun hfew => hiff.2 ?_⟩
  have hmod : words.map (·.2 % 2 ^ w) = words.map Prod.snd :=
    List.map_congr_left fun y hy => Nat.mod_eq_of_lt (Nat.lt_of_lt_of_le (hlt y hy) hfew)
  rw [hmod]
  exact nodup_numbers w _

/-- Words of four bits among other ones, with the counters started again in between. -/
theorem words_nodup_iff_mixed :
    let s : Supply := ⟨4, some "w", .zero, .zero, ⟨15, by decide⟩⟩
    let as : List Action := [.allocate ⟨.output, none⟩, .allocate ⟨.output, some 8⟩, .reset,
      .allocate ⟨.general, none⟩, .allocate ⟨.output, some 4⟩]
    let words := wordsOf 4 (stream s.width (s.run as))
    .resetOutput ∉ as ∧ (stream s.width (s.run as)).length ≤ Counter.limit
      ∧ words.map Prod.snd = [0, 2] ∧ (words.map Prod.fst).Nodup := by
  intro s as words
  have hkeep : .resetOutput ∉ as := by simp [as]
  have hcount : (stream s.width (s.run as)).length ≤ Counter.limit := by decide +kernel
  exact ⟨hkeep, hcount, by decide +kernel, (words_nodup_iff hkeep hcount 4).2 (by decide +kernel)⟩

/-- A stream of single bits comes back to its root with the third word. -/
theorem words_not_nodup :
    let s : Supply := default
    let as : List Action := List.replicate 3 (.allocate ⟨.output, some 1⟩)
    .resetOutput ∉ as ∧ as.length < Counter.limit - 1
      ∧ ¬((wordsOf 1 (stream s.width (s.run as))).map Prod.fst).Nodup := by
  intro s as
  refine ⟨by simp [as], by decide, ?_⟩
  have hwords : (wordsOf 1 (stream s.width (s.run as))).map Prod.fst
      = [.ok ⟨.sym "#stdout" 1⟩, .ok ⟨.binary .add (.sym "#stdout" 1) (.lit 1 1)⟩,
        .ok ⟨.sym "#stdout" 1⟩] := by decide +kernel
  rw [hwords]
  simp

end Supply

end SymWord
