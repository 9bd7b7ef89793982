import SymWord.Proofs.LetterNumerals
import SymWord.Supply
import SymWord.Term.Declaration

/-!
# Generated names

A generated name is the scope of the supply and a stem: `v#` or `m#` with the numeral of a counter,
or the root of the output stream. Different stems have different texts. A stem holds no colon, so
the scope can be read off a name (`scope_eq_of_qualify`), and it holds a `#`, which names from
callers do not.

A counter that goes round comes back to a number only after all others. The general counter has one
number less, since it leaves out `skipped`: counted from there on, the number of each allocation is
one place after the number of the allocation before it (`place_nextGeneral`). So the numbers that
the allocations of a run can still bring up (`Due`) do not have the one just used among them.
-/

namespace SymWord

namespace Supply

/-! ## Stems and scopes -/

/-- A generated name without its scope. -/
inductive Stem where
  | general (n : Counter)
  | memory (n : Counter)
  | output

namespace Stem

def text : Stem → String
  | general n => "v#" ++ Letters.text n.val
  | memory n => "m#" ++ Letters.text n.val
  | output => "#stdout"

theorem text_injective : Function.Injective text := by
  intro a b h
  have hlist := congrArg String.toList h
  cases a <;> cases b <;> simp [text] at hlist
  · rename_i m n
    rw [Fin.ext (Letters.text_injective (String.toList_inj.1 hlist))]
  · rename_i m n
    rw [Fin.ext (Letters.text_injective (String.toList_inj.1 hlist))]
  · rfl

theorem sigil_mem_text (st : Stem) : '#' ∈ st.text.toList := by
  cases st <;> simp [text]

theorem colon_notMem_text (st : Stem) : ':' ∉ st.text.toList := by
  cases st <;> simp [text, Letters.notMem_text]

end Stem

/-- What stands before the names of a scope. -/
def lead : Option String → List Char
  | none => []
  | some scope => scope.toList ++ [':']

theorem lead_injective : Function.Injective lead := by
  intro a b h
  cases a <;> cases b <;> simp [lead] at h
  · rfl
  · rw [String.toList_inj.1 h]

theorem toList_qualify (s : Supply) (name : String) :
    (s.qualify name).toList = lead s.scope ++ name.toList := by
  unfold qualify
  split <;> simp [lead, *]

theorem qualify_congr {s s' : Supply} (h : s.scope = s'.scope) (name : String) :
    s.qualify name = s'.qualify name := by
  rw [qualify, qualify, h]

theorem qualify_injective (s : Supply) : Function.Injective s.qualify := by
  intro a b h
  have hlist := congrArg String.toList h
  rw [toList_qualify, toList_qualify] at hlist
  exact String.toList_inj.1 (List.append_cancel_left hlist)

/-- Read from its end up to the last colon, a name leaves its scope. -/
theorem dropWhile_lead (scope : Option String) {cs : List Char} (h : ':' ∉ cs) :
    (lead scope ++ cs).reverse.dropWhile (· != ':') = (lead scope).reverse := by
  have hcs : ∀ c ∈ cs.reverse, (c != ':') = true := by
    intro c hc
    have hmem := List.mem_reverse.1 hc
    simp only [bne_iff_ne]
    rintro rfl
    exact h hmem
  rw [List.reverse_append, List.dropWhile_append_of_pos hcs]
  cases scope <;> simp [lead]

theorem scope_eq_of_qualify {s s' : Supply} {a b : String} (ha : ':' ∉ a.toList)
    (hb : ':' ∉ b.toList) (h : s.qualify a = s'.qualify b) : s.scope = s'.scope := by
  have hlist := congrArg String.toList h
  rw [toList_qualify, toList_qualify] at hlist
  have hlead := congrArg (fun cs => cs.reverse.dropWhile (· != ':')) hlist
  simp only [dropWhile_lead _ ha, dropWhile_lead _ hb] at hlead
  exact lead_injective (List.reverse_inj.1 hlead)

/-! ## Runs -/

/-- Where a symbol comes from. -/
inductive Origin where
  | general
  | memory
  | output
  | segment (name : String)
  | named (name : String)
  deriving DecidableEq

namespace Origin

/-- Each symbol has a number of its own. -/
def isNumbered : Origin → Bool
  | general | memory => true
  | _ => false

/-- The supply makes up the name. -/
def isGenerated : Origin → Bool
  | general | memory | output => true
  | _ => false

/-- The name that the caller gives. -/
def given? : Origin → Option String
  | segment name | named name => some name
  | _ => none

end Origin

/-- A request for a symbol, which has the width of the supply if none is given. -/
structure Allocation where
  origin : Origin
  width? : Option Nat

def Allocation.bits (a : Allocation) (s : Supply) : Nat := a.width?.getD s.width

def allocate (s : Supply) (a : Allocation) : Except Error Value × Supply :=
  match a.origin with
  | .general => s.fresh (a.bits s)
  | .memory => s.freshMemory (a.bits s)
  | .output => (.ok (s.freshOutput (a.bits s)).1, (s.freshOutput (a.bits s)).2)
  | .segment name => (segment name (a.bits s), s)
  | .named name => (named name (a.bits s), s)

inductive Action where
  | allocate (a : Allocation)
  | reset
  | resetOutput

/-- The allocations of a run with their answers. -/
def run : Supply → List Action → List (Allocation × Except Error Value)
  | _, [] => []
  | s, .allocate a :: as => (a, (s.allocate a).1) :: run (s.allocate a).2 as
  | s, .reset :: as => run s.reset as
  | s, .resetOutput :: as => run s.resetOutput as

def namesIn : Except Error Value → List String
  | .ok v => v.term.mentions.map Declaration.name
  | .error _ => []

/-- The names in the answers for the origins that `p` picks. -/
def names (p : Origin → Bool) : List (Allocation × Except Error Value) → List String
  | [] => []
  | (a, r) :: l => (if p a.origin then namesIn r else []) ++ names p l

/-- The stem of the name that comes next for an origin. -/
def stem? (s : Supply) : Origin → Option Stem
  | .general => some (.general s.nextGeneral)
  | .memory => some (.memory s.memory)
  | .output => some .output
  | _ => none

section

variable {s : Supply} {a : Allocation} {st : Stem}

@[simp] theorem allocate_scope : (s.allocate a).2.scope = s.scope := by
  unfold allocate
  split <;> rfl

@[simp] theorem allocate_width : (s.allocate a).2.width = s.width := by
  unfold allocate
  split <;> rfl

theorem allocate_qualify (name : String) : (s.allocate a).2.qualify name = s.qualify name :=
  qualify_congr allocate_scope name

theorem mentions_freshOutput (s : Supply) (w : Nat) :
    (s.freshOutput w).1.term.mentions = [.constant s.outputRoot w] := by
  by_cases h : Word.truncate s.output.val w = 0 <;>
    simp [freshOutput, Term.const, Term.mkBinary, Term.mkBinaryLit, Term.trivial?, Term.mentions, h]

theorem namesIn_symbol {name : String} {w : Nat} (hw : 0 < w) :
    namesIn (Value.symbol name w) = [name] := by
  rw [Value.symbol, if_neg (Nat.ne_of_gt hw)]
  rfl

theorem namesIn_symbol_subset (name : String) (w : Nat) :
    namesIn (Value.symbol name w) ⊆ [name] := by
  unfold Value.symbol
  split
  · exact List.nil_subset _
  · exact List.Subset.refl _

theorem namesIn_allocate (h : s.stem? a.origin = some st) (hw : 0 < a.bits s) :
    namesIn (s.allocate a).1 = [s.qualify st.text] := by
  unfold allocate
  split <;> rename_i ho <;> rw [ho] at h <;> cases h
  · exact namesIn_symbol hw
  · exact namesIn_symbol hw
  · simp only [namesIn, mentions_freshOutput]
    rfl

theorem namesIn_allocate_subset (h : s.stem? a.origin = some st) :
    namesIn (s.allocate a).1 ⊆ [s.qualify st.text] := by
  unfold allocate
  split <;> rename_i ho <;> rw [ho] at h <;> cases h
  · exact namesIn_symbol_subset _ _
  · exact namesIn_symbol_subset _ _
  · simp only [namesIn, mentions_freshOutput]
    exact List.Subset.refl _

theorem stem?_of_isGenerated {o : Origin} (h : o.isGenerated = true) :
    ∃ st, s.stem? o = some st := by
  cases o with
  | general | memory | output => exact ⟨_, rfl⟩
  | segment | named => cases h

end

theorem mem_names {p : Origin → Bool} {l : List (Allocation × Except Error Value)} {n : String} :
    n ∈ names p l ↔ ∃ x ∈ l, p x.1.origin = true ∧ n ∈ namesIn x.2 := by
  induction l with
  | nil => simp [names]
  | cons x l ih =>
    rw [names, List.mem_append, ih]
    by_cases hp : p x.1.origin = true <;> simp [hp]

/-- Each answer is that of a supply with the same scope and width. -/
theorem exists_allocate_of_mem_run : ∀ (as : List Action) {s : Supply}
    {x : Allocation × Except Error Value}, x ∈ s.run as → ∃ s' : Supply, s'.scope = s.scope
      ∧ s'.width = s.width ∧ .allocate x.1 ∈ as ∧ x.2 = (s'.allocate x.1).1
  | [], s, x, h => by simp [run] at h
  | .allocate a :: as, s, x, h => by
    rw [run] at h
    rcases List.mem_cons.1 h with rfl | h
    · exact ⟨s, rfl, rfl, List.mem_cons_self, rfl⟩
    · obtain ⟨s', hscope, hwidth, hmem, hx⟩ := exists_allocate_of_mem_run as h
      rw [allocate_scope] at hscope
      rw [allocate_width] at hwidth
      exact ⟨s', hscope, hwidth, List.mem_cons_of_mem _ hmem, hx⟩
  | .reset :: as, s, x, h => by
    obtain ⟨s', hscope, hwidth, hmem, hx⟩ := exists_allocate_of_mem_run as (s := s.reset) h
    exact ⟨s', hscope, hwidth, List.mem_cons_of_mem _ hmem, hx⟩
  | .resetOutput :: as, s, x, h => by
    obtain ⟨s', hscope, hwidth, hmem, hx⟩ := exists_allocate_of_mem_run as (s := s.resetOutput) h
    exact ⟨s', hscope, hwidth, List.mem_cons_of_mem _ hmem, hx⟩

theorem exists_stem_of_mem_names {as : List Action} {s : Supply} {n : String}
    (h : n ∈ names Origin.isGenerated (s.run as)) : ∃ st : Stem, n = s.qualify st.text := by
  obtain ⟨x, hx, ho, hn⟩ := mem_names.1 h
  obtain ⟨s', hscope, -, -, hanswer⟩ := exists_allocate_of_mem_run as hx
  obtain ⟨st, hst⟩ := stem?_of_isGenerated (s := s') ho
  rw [hanswer] at hn
  refine ⟨st, ?_⟩
  rw [List.mem_singleton.1 (namesIn_allocate_subset hst hn), qualify_congr hscope]

theorem eq_outputRoot_of_mem_names {as : List Action} {s : Supply} {n : String}
    (h : n ∈ names (· == .output) (s.run as)) : n = s.outputRoot := by
  obtain ⟨x, hx, ho, hn⟩ := mem_names.1 h
  obtain ⟨s', hscope, -, -, hanswer⟩ := exists_allocate_of_mem_run as hx
  have hst : s'.stem? x.1.origin = some .output := by
    rw [beq_iff_eq.1 ho]
    rfl
  rw [hanswer] at hn
  rw [List.mem_singleton.1 (namesIn_allocate_subset hst hn), qualify_congr hscope]
  rfl

/-- Supplies with different scopes have no generated name in common, whatever is asked of them. -/
theorem scopes_apart {s s' : Supply} (h : s.scope ≠ s'.scope) (as as' : List Action) :
    ∀ n ∈ names Origin.isGenerated (s.run as), n ∉ names Origin.isGenerated (s'.run as') := by
  intro n hn hn'
  obtain ⟨st, rfl⟩ := exists_stem_of_mem_names hn
  obtain ⟨st', hst⟩ := exists_stem_of_mem_names hn'
  exact h (scope_eq_of_qualify st.colon_notMem_text st'.colon_notMem_text hst)

/-- One scope is another one with a generated name after it. -/
theorem scopes_apart_nested :
    let s : Supply := ⟨8, some "w", .zero, .zero, .zero⟩
    let s' : Supply := ⟨8, some "w:v#a", .zero, .zero, .zero⟩
    let as : List Action := [.allocate ⟨.general, none⟩, .reset, .allocate ⟨.output, some 4⟩]
    s.scope ≠ s'.scope ∧ names Origin.isGenerated (s.run as) = ["w:v#a", "w:#stdout"]
      ∧ names Origin.isGenerated (s'.run as) = ["w:v#a:v#a", "w:v#a:#stdout"]
      ∧ ∀ n ∈ names Origin.isGenerated (s.run as), n ∉ names Origin.isGenerated (s'.run as) := by
  intro s s' as
  have h : s.scope ≠ s'.scope := by decide
  exact ⟨h, by decide +kernel, by decide +kernel, scopes_apart h as as⟩

/-! ## Numbers -/

/-- How many numbers after the first one past `skipped`, going round. -/
def place (n : Counter) : Nat := (n.val + Counter.limit - (skipped.val + 1)) % Counter.limit

theorem place_skipped : place skipped = Counter.limit - 1 := by decide

theorem place_lt {n : Counter} (h : n ≠ skipped) : place n < Counter.limit - 1 := by
  have hval : n.val ≠ 23 := fun hn => h (Fin.ext hn)
  have hlt := n.isLt
  simp only [place, skipped, Counter.limit] at hlt ⊢
  omega

theorem nextGeneral_ne_skipped (s : Supply) : s.nextGeneral ≠ skipped := by
  unfold nextGeneral
  split
  · rename_i h
    rw [h]
    decide
  · assumption

/-- Each general number is one place after the one before it. -/
theorem place_nextGeneral (s : Supply) (w : Nat) :
    place (s.fresh w).2.nextGeneral = (place s.nextGeneral + 1) % (Counter.limit - 1) := by
  have hnext : (s.fresh w).2.nextGeneral
      = if s.nextGeneral.next = skipped then s.nextGeneral.next.next else s.nextGeneral.next := rfl
  have hne : s.nextGeneral.val ≠ 23 := fun hn => s.nextGeneral_ne_skipped (Fin.ext hn)
  have hlt := s.nextGeneral.isLt
  rw [hnext]
  generalize s.nextGeneral = n at hne hlt
  split
  all_goals
    rename_i h
    rw [Fin.ext_iff] at h
    simp only [place, Counter.next, skipped, Counter.limit] at h hlt ⊢
    omega

section

variable {s : Supply} {a : Allocation} {os : List Origin} {st : Stem}

theorem nextGeneral_allocate (h : a.origin ≠ .general) :
    (s.allocate a).2.nextGeneral = s.nextGeneral := by
  unfold allocate
  split <;> first | contradiction | rfl

theorem place_allocate : place (s.allocate a).2.nextGeneral
    = (place s.nextGeneral + if a.origin = .general then 1 else 0) % (Counter.limit - 1) := by
  split
  · rename_i ho
    have hfresh : s.allocate a = s.fresh (a.bits s) := by rw [allocate, ho]
    rw [hfresh, place_nextGeneral]
  · rename_i ho
    have hlt := place_lt s.nextGeneral_ne_skipped
    rw [nextGeneral_allocate ho, Nat.add_zero, Nat.mod_eq_of_lt hlt]

theorem memory_allocate : (s.allocate a).2.memory.val
    = (s.memory.val + if a.origin = .memory then 1 else 0) % Counter.limit := by
  split
  · rename_i ho
    have hfresh : s.allocate a = s.freshMemory (a.bits s) := by rw [allocate, ho]
    rw [hfresh]
    rfl
  · rename_i ho
    have hsame : (s.allocate a).2.memory = s.memory := by
      unfold allocate
      split <;> first | contradiction | rfl
    rw [hsame, Nat.add_zero, Nat.mod_eq_of_lt s.memory.isLt]

/-- The stem is among those that allocations of these origins can bring up. -/
def Due (s : Supply) (os : List Origin) : Stem → Prop
  | .general n =>
    ∃ i < os.count .general, place n = (place s.nextGeneral + i) % (Counter.limit - 1)
  | .memory n => ∃ i < os.count .memory, n.val = (s.memory.val + i) % Counter.limit
  | .output => False

theorem due_stem (ha : a.origin.isNumbered = true) (hst : s.stem? a.origin = some st) :
    s.Due (a.origin :: os) st := by
  cases ho : a.origin <;> rw [ho] at ha hst <;> cases ha <;> cases hst
  · have hlt := place_lt s.nextGeneral_ne_skipped
    exact ⟨0, by simp, by rw [Nat.add_zero, Nat.mod_eq_of_lt hlt]⟩
  · exact ⟨0, by simp, by rw [Nat.add_zero, Nat.mod_eq_of_lt s.memory.isLt]⟩

theorem add_lt_count_cons {o o' : Origin} {i : Nat} (h : i < os.count o) :
    i + (if o' = o then 1 else 0) < (o' :: os).count o := by
  rw [List.count_cons]
  simp only [beq_iff_eq]
  exact Nat.add_lt_add_right h _

theorem Due.cons (h : (s.allocate a).2.Due os st) : s.Due (a.origin :: os) st := by
  cases st with
  | output => exact h
  | general n =>
    obtain ⟨i, hi, hn⟩ := h
    rw [place_allocate, Nat.mod_add_mod, Nat.add_assoc, Nat.add_comm _ i] at hn
    exact ⟨_, add_lt_count_cons hi, hn⟩
  | memory n =>
    obtain ⟨i, hi, hn⟩ := h
    rw [memory_allocate, Nat.mod_add_mod, Nat.add_assoc, Nat.add_comm _ i] at hn
    exact ⟨_, add_lt_count_cons hi, hn⟩

/-- A stem that was just used does not come up again while there are fewer allocations than
numbers. -/
theorem not_due_stem (hgeneral : (a.origin :: os).count .general < Counter.limit - 1)
    (hmemory : (a.origin :: os).count .memory < Counter.limit - 1)
    (hst : s.stem? a.origin = some st) : ¬(s.allocate a).2.Due os st := by
  intro h
  cases ho : a.origin <;> rw [ho] at hst <;> cases hst
  · obtain ⟨i, hi, hn⟩ := h
    have hlt := place_lt s.nextGeneral_ne_skipped
    rw [place_allocate, ho, Nat.mod_add_mod] at hn
    rw [ho, List.count_cons_self] at hgeneral
    simp only [Counter.limit, ↓reduceIte] at *
    omega
  · obtain ⟨i, hi, hn⟩ := h
    have hlt := s.memory.isLt
    rw [memory_allocate, ho, Nat.mod_add_mod] at hn
    rw [ho, List.count_cons_self] at hmemory
    simp only [Counter.limit, ↓reduceIte] at *
    omega
  · exact h

end

theorem isGenerated_of_isNumbered {o : Origin} (h : o.isNumbered = true) :
    o.isGenerated = true := by
  cases o <;> first | rfl | cases h

theorem due_of_mem_run : ∀ (as : List Allocation) {s : Supply} {n : String},
    n ∈ names Origin.isNumbered (s.run (as.map .allocate)) →
      ∃ st, n = s.qualify st.text ∧ s.Due (as.map Allocation.origin) st
  | [], s, n, h => by simp [run, names] at h
  | a :: as, s, n, h => by
    rw [List.map_cons, run, names, List.mem_append] at h
    rcases h with h | h
    · split at h
      · rename_i ha
        obtain ⟨st, hst⟩ := stem?_of_isGenerated (s := s) (isGenerated_of_isNumbered ha)
        exact ⟨st, List.mem_singleton.1 (namesIn_allocate_subset hst h), due_stem ha hst⟩
      · cases h
    · obtain ⟨st, rfl, hdue⟩ := due_of_mem_run as h
      exact ⟨st, allocate_qualify _, hdue.cons⟩

theorem sigil_mem_of_mem_run {as : List Allocation} {s : Supply} {n : String}
    (h : n ∈ names Origin.isNumbered (s.run (as.map .allocate))) : '#' ∈ n.toList := by
  obtain ⟨st, rfl, -⟩ := due_of_mem_run as h
  rw [toList_qualify]
  exact List.mem_append_right _ st.sigil_mem_text

theorem due_of_qualify_mem {as : List Allocation} {s : Supply} (st : Stem)
    (h : s.qualify st.text ∈ names Origin.isNumbered (s.run (as.map .allocate))) :
    s.Due (as.map Allocation.origin) st := by
  obtain ⟨st', heq, hdue⟩ := due_of_mem_run as h
  rwa [Stem.text_injective (s.qualify_injective heq)]

theorem skipped_notMem_run {as : List Allocation} {s : Supply} :
    s.qualify "v#x" ∉ names Origin.isNumbered (s.run (as.map .allocate)) := by
  have htext : "v#x" = (Stem.general skipped).text := by decide +kernel
  rw [htext]
  intro h
  obtain ⟨i, -, hplace⟩ := due_of_qualify_mem _ h
  rw [place_skipped] at hplace
  exact absurd hplace (Nat.ne_of_gt (Nat.mod_lt _ (by decide)))

/-- Every allocation of a numbered symbol brings up one name, and no two the same. -/
theorem numbered_run : ∀ (as : List Allocation) {s : Supply}, (∀ a ∈ as, 0 < a.bits s) →
    (as.map Allocation.origin).count .general < Counter.limit - 1 →
      (as.map Allocation.origin).count .memory < Counter.limit - 1 →
        (names Origin.isNumbered (s.run (as.map .allocate))).length
            = (as.map Allocation.origin).countP Origin.isNumbered
          ∧ (names Origin.isNumbered (s.run (as.map .allocate))).Nodup
  | [], s, _, _, _ => ⟨rfl, List.nodup_nil⟩
  | a :: as, s, hw, hg, hm => by
    have hbits : ∀ a' ∈ as, 0 < a'.bits (s.allocate a).2 := by
      intro a' ha'
      rw [Allocation.bits, allocate_width]
      exact hw a' (List.mem_cons_of_mem _ ha')
    rw [List.map_cons] at hg hm
    have hcount : ∀ o, (as.map Allocation.origin).count o
        ≤ (a.origin :: as.map Allocation.origin).count o := fun o => List.count_le_count_cons
    obtain ⟨hlen, hnodup⟩ := numbered_run as hbits (Nat.lt_of_le_of_lt (hcount _) hg)
      (Nat.lt_of_le_of_lt (hcount _) hm)
    rw [List.map_cons, List.map_cons, run, names, List.countP_cons]
    split
    · rename_i ha
      obtain ⟨st, hst⟩ := stem?_of_isGenerated (s := s) (isGenerated_of_isNumbered ha)
      rw [namesIn_allocate hst (hw a List.mem_cons_self), List.singleton_append]
      refine ⟨by rw [List.length_cons, hlen], List.nodup_cons.2 ⟨fun hmem => ?_, hnodup⟩⟩
      -- The name would come up again, and so would its stem.
      obtain ⟨st', heq, hdue⟩ := due_of_mem_run as hmem
      rw [allocate_qualify] at heq
      rw [← Stem.text_injective (s.qualify_injective heq)] at hdue
      exact not_due_stem hg hm hst hdue
    · exact ⟨by rw [List.nil_append, hlen, Nat.add_zero], by rwa [List.nil_append]⟩

/-! ## Names from callers -/

section

variable {s : Supply} {a : Allocation} {name : String}

/-- The full name has a `#` only if the given one has. -/
theorem allocate_given (h : a.origin.given? = some name) : ∃ full : String,
    ('#' ∈ full.toList ↔ '#' ∈ name.toList) ∧ (s.allocate a).1 =
      if '#' ∈ name.toList then .error (.reservedName name) else Value.symbol full (a.bits s) := by
  have hbind : ∀ r : Except Error Value, (do checkName name; r)
      = if '#' ∈ name.toList then .error (.reservedName name) else r := by
    intro r
    unfold checkName
    split <;> rfl
  unfold allocate
  split <;> rename_i ho <;> rw [ho] at h <;> cases h
  · exact ⟨"_" ++ name, by simp, hbind _⟩
  · exact ⟨name, Iff.rfl, hbind _⟩

theorem isOk_allocate_given (h : a.origin.given? = some name) (hw : 0 < a.bits s) :
    (s.allocate a).1.isOk = true ↔ '#' ∉ name.toList := by
  obtain ⟨full, -, hanswer⟩ := allocate_given (s := s) h
  rw [hanswer, Value.symbol, if_neg (Nat.ne_of_gt hw)]
  split <;> simp [Except.isOk, Except.toBool, *]

theorem sigil_notMem_of_given (h : a.origin.given? = some name) {n : String}
    (hn : n ∈ namesIn (s.allocate a).1) : '#' ∉ n.toList := by
  obtain ⟨full, hfull, hanswer⟩ := allocate_given (s := s) h
  rw [hanswer] at hn
  split at hn
  · cases hn
  · rw [List.mem_singleton.1 (namesIn_symbol_subset _ _ hn), hfull]
    assumption

end

theorem sigil_notMem_of_mem_names {as : List Action} {s : Supply} {n : String}
    (h : n ∈ names (·.given?.isSome) (s.run as)) : '#' ∉ n.toList := by
  obtain ⟨x, hx, ho, hn⟩ := mem_names.1 h
  obtain ⟨name, hname⟩ := Option.isSome_iff_exists.1 ho
  obtain ⟨s', -, -, -, hanswer⟩ := exists_allocate_of_mem_run as hx
  rw [hanswer] at hn
  exact sigil_notMem_of_given hname hn

theorem isOk_of_mem_run {as : List Allocation} {s : Supply} (hwidth : ∀ a ∈ as, 0 < a.bits s)
    {x : Allocation × Except Error Value} (hx : x ∈ s.run (as.map .allocate)) {name : String}
    (hname : x.1.origin.given? = some name) : x.2.isOk = true ↔ '#' ∉ name.toList := by
  obtain ⟨s', -, hw, hmem, hanswer⟩ := exists_allocate_of_mem_run _ hx
  obtain ⟨a, ha, hax⟩ := List.mem_map.1 hmem
  cases hax
  have hbits : 0 < x.1.bits s' := by
    rw [Allocation.bits, hw]
    exact hwidth _ ha
  rw [hanswer]
  exact isOk_allocate_given hname hbits

/-- While there are fewer allocations than numbers, numbered symbols have names that differ from
each other, from the root of the output stream, from the names that callers were given and from the
fixed names. A caller is given a name exactly if there is no `#` in it. -/
theorem numbered_names_apart {s : Supply} {as : List Allocation} (hwidth : ∀ a ∈ as, 0 < a.bits s)
    (hgeneral : (as.map Allocation.origin).count .general < Counter.limit - 1)
    (hmemory : (as.map Allocation.origin).count .memory < Counter.limit - 1) :
    let answers := s.run (as.map .allocate)
    let numbered := names Origin.isNumbered answers
    numbered.length = (as.map Allocation.origin).countP Origin.isNumbered ∧ numbered.Nodup
      ∧ s.outputRoot ∉ numbered ∧ (∀ n ∈ names (· == .output) answers, n = s.outputRoot)
      ∧ (∀ n ∈ names (·.given?.isSome) answers, n ∉ numbered)
      ∧ endName ∉ numbered ∧ bottomName ∉ numbered ∧ s.qualify "v#x" ∉ numbered
      ∧ ∀ x ∈ answers, ∀ name, x.1.origin.given? = some name →
          (x.2.isOk = true ↔ '#' ∉ name.toList) := by
  intro answers numbered
  obtain ⟨hlen, hnodup⟩ := numbered_run as hwidth hgeneral hmemory
  have hsigil : ∀ n, '#' ∉ n.toList → n ∉ numbered := fun n hn h => hn (sigil_mem_of_mem_run h)
  refine ⟨hlen, hnodup, due_of_qualify_mem .output, fun n hn => eq_outputRoot_of_mem_names hn,
    ?_, ?_, ?_, ?_, fun x hx name hname => isOk_of_mem_run hwidth hx hname⟩
  · exact fun n hn => hsigil n (sigil_notMem_of_mem_names hn)
  · exact hsigil _ (by decide)
  · exact hsigil _ (by decide)
  · exact skipped_notMem_run

/-- The counter stands one before the number that is left out, and the scope looks like a name. -/
theorem numbered_names_apart_skipping :
    let s : Supply := ⟨8, some "w:v#a", ⟨22, by decide⟩, .zero, .zero⟩
    let as : List Allocation := [⟨.general, none⟩, ⟨.named "rax", none⟩, ⟨.output, none⟩,
      ⟨.general, some 4⟩, ⟨.segment "f#s", none⟩, ⟨.memory, none⟩]
    let numbered := names Origin.isNumbered (s.run (as.map .allocate))
    (∀ a ∈ as, 0 < a.bits s) ∧ (as.map Allocation.origin).count .general < Counter.limit - 1
      ∧ (as.map Allocation.origin).count .memory < Counter.limit - 1
      ∧ numbered = ["w:v#a:v#w", "w:v#a:v#y", "w:v#a:m#a"] ∧ numbered.Nodup := by
  intro s as numbered
  have hwidth : ∀ a ∈ as, 0 < a.bits s := by decide
  have hgeneral : (as.map Allocation.origin).count .general < Counter.limit - 1 := by decide
  have hmemory : (as.map Allocation.origin).count .memory < Counter.limit - 1 := by decide
  exact ⟨hwidth, hgeneral, hmemory, by decide +kernel,
    (numbered_names_apart hwidth hgeneral hmemory).2.1⟩

end Supply

end SymWord
