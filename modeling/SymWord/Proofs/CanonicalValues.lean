import SymWord.Proofs.Concolic

/-!
# Values stay canonical

A value is canonical when its term is well-formed and in normal form. The algebra does not normalize
its results. It builds each one by the rules for a single node over the terms of its arguments
(`AlgebraCall.run_makes`), and over terms in normal form that is what normalization does. So every
result is the normal form of the plain tree that the operation stands for, and the normal form of a
well-formed tree is canonical.
-/

namespace SymWord

namespace Term

/-! ## Substitution -/

mutual

theorem replace_wellFormed {old new : Term} (hnew : new.WellFormed) (hw : new.width = old.width) :
    ∀ (t : Term), t.WellFormed →
      (replace old new t).WellFormed ∧ (replace old new t).width = t.width := by
  intro t h
  rw [replace.eq_def]
  split
  · rename_i heq
    exact ⟨hnew, heq ▸ hw⟩
  match t, h with
  | lit _ _, h | sym _ _, h => exact ⟨h, rfl⟩
  | unary _ t, h => exact replace_wellFormed hnew hw t h
  | binary _ l r, h =>
    obtain ⟨hl, hwl⟩ := replace_wellFormed hnew hw l h.1
    obtain ⟨hr, hwr⟩ := replace_wellFormed hnew hw r h.2.1
    exact ⟨⟨hl, hr, by rw [hwl, hwr, h.2.2]⟩, hwl⟩
  | compare _ l r, h =>
    obtain ⟨hl, hwl⟩ := replace_wellFormed hnew hw l h.1
    obtain ⟨hr, hwr⟩ := replace_wellFormed hnew hw r h.2.1
    exact ⟨⟨hl, hr, by rw [hwl, hwr, h.2.2]⟩, rfl⟩
  | extract _ _ t, h =>
    obtain ⟨ht, hwt⟩ := replace_wellFormed hnew hw t h.1
    exact ⟨⟨ht, h.2.1, hwt ▸ h.2.2⟩, rfl⟩
  | concat ts, h =>
    obtain ⟨hts, hwts⟩ := replaceList_wellFormed hnew hw ts h.2.1
    have hcount := totalWidth_congr hwts
    have hne : replaceList old new ts ≠ [] := by
      intro hnil
      rw [hnil] at hwts
      exact h.1 (List.map_eq_nil_iff.1 hwts.symm)
    refine ⟨⟨hne, hts, hcount ▸ h.2.2⟩, ?_⟩
    rw [width_concat, width_concat, hcount]
  | zeroExtend _ t, h =>
    obtain ⟨ht, hwt⟩ := replace_wellFormed hnew hw t h.1
    exact ⟨⟨ht, hwt ▸ h.2⟩, by rw [width, width, hwt]⟩
  | signExtend _ t, h =>
    obtain ⟨ht, hwt⟩ := replace_wellFormed hnew hw t h.1
    exact ⟨⟨ht, hwt ▸ h.2⟩, by rw [width, width, hwt]⟩
  | apply _ ts _, h => exact ⟨⟨(replaceList_wellFormed hnew hw ts h.1).1, h.2⟩, rfl⟩
  | select _ t _, h => exact ⟨⟨(replace_wellFormed hnew hw t h.1).1, h.2⟩, rfl⟩

theorem replaceList_wellFormed {old new : Term} (hnew : new.WellFormed)
    (hw : new.width = old.width) : ∀ (ts : List Term), AllWellFormed ts →
      AllWellFormed (replaceList old new ts) ∧ (replaceList old new ts).map width = ts.map width
  | [], _ => ⟨trivial, rfl⟩
  | t :: ts, h => by
    obtain ⟨ht, hwt⟩ := replace_wellFormed hnew hw t h.1
    obtain ⟨hts, hwts⟩ := replaceList_wellFormed hnew hw ts h.2
    exact ⟨⟨ht, hts⟩, by rw [replaceList, List.map_cons, List.map_cons, hwt, hwts]⟩

end

/-! ## Exclusive nor -/

/-- The plain tree for one more bit taken into what the bits below it make. -/
def xnorNode (t acc : Term) (i : Nat) : Term := unary .not (binary .xor acc (extract i i t))

theorem foldl_xnorNode_wellFormed {t : Term} (h : t.WellFormed) : ∀ (is : List Nat) {acc : Term},
    (∀ i ∈ is, i < t.width) → acc.WellFormed → acc.width = 1 →
      (is.foldl (xnorNode t) acc).WellFormed ∧ (is.foldl (xnorNode t) acc).width = 1
  | [], _, _, hacc, hone => ⟨hacc, hone⟩
  | i :: is, _, his, hacc, hone => by
    have hbit : (extract i i t).WellFormed := ⟨h, Nat.le_refl i, his i List.mem_cons_self⟩
    have hwidth : (extract i i t).width = 1 := by
      rw [width_extract]
      omega
    exact foldl_xnorNode_wellFormed h is (fun j hj => his j (List.mem_cons_of_mem _ hj))
      ⟨hacc, hbit, hone.trans hwidth.symm⟩ hone

theorem normalize_foldl_xnorNode {t : Term} (h : t.normalize = t) : ∀ (is : List Nat) (acc : Term),
    (is.foldl (xnorNode t) acc).normalize = is.foldl (xnorStep t) acc.normalize
  | [], _ => rfl
  | i :: is, acc => by
    rw [List.foldl_cons, normalize_foldl_xnorNode h is, List.foldl_cons]
    simp only [xnorNode, Term.normalize, xnorStep, h]

end Term

namespace Value

open Term

structure Canonical (v : Value) : Prop where
  wellFormed : v.term.WellFormed
  normalize_eq : v.term.normalize = v.term

instance : DecidablePred Canonical := fun v =>
  decidable_of_iff (v.term.WellFormed ∧ v.term.normalize = v.term)
    ⟨fun h => ⟨h.1, h.2⟩, fun h => ⟨h.1, h.2⟩⟩

theorem canonical_ofTerm {t : Term} (h : t.WellFormed) : (ofTerm t).Canonical where
  wellFormed := (normalize_replaces t h).wellFormed
  normalize_eq := normalize_of_normal (normalize_normal t h)

theorem Canonical.ofTerm_term {v : Value} (h : v.Canonical) : ofTerm v.term = v := by
  rw [ofTerm, h.normalize_eq]

/-- The value is the normal form of a well-formed tree. -/
structure Represents (v : Value) (t : Term) : Prop where
  wellFormed : t.WellFormed
  eq_ofTerm : v = ofTerm t

theorem Represents.canonical {v : Value} {t : Term} (h : v.Represents t) : v.Canonical := by
  rw [h.eq_ofTerm]
  exact canonical_ofTerm h.wellFormed

theorem Represents.replaces {v : Value} {t : Term} (h : v.Represents t) :
    Replaces v.term t := by
  rw [h.eq_ofTerm]
  exact normalize_replaces t h.wellFormed

section

variable {v x y u : Value} {n high low bits : Nat}

theorem eq_of_agree {u' : Value} (h : (do x.agree y; return u) = Except.ok u') :
    x.width = y.width ∧ u' = u := by
  simp only [agree] at h
  split at h
  · cases h
    exact ⟨‹_›, rfl⟩
  · cases h

/-- A constructor that asks for at least one bit. -/
theorem eq_of_nonzero {t : Term}
    (h : (if n = 0 then .error .zeroWidth else .ok ⟨t⟩ : Except Error Value) = .ok v) :
    0 < n ∧ v = ⟨t⟩ := by
  split at h
  · cases h
  · rename_i hn
    cases h
    exact ⟨Nat.pos_of_ne_zero hn, rfl⟩

theorem represents_binary {op : BinaryOp} (hx : x.Canonical) (hy : y.Canonical)
    (h : x.binary op y = .ok u) : u.Represents (.binary op x.term y.term) := by
  obtain ⟨hw, rfl⟩ := eq_of_agree h
  refine ⟨⟨hx.wellFormed, hy.wellFormed, hw⟩, ?_⟩
  rw [ofTerm, Term.normalize, hx.normalize_eq, hy.normalize_eq]

theorem represents_compare {op : Comparison} (hx : x.Canonical) (hy : y.Canonical)
    (h : x.compare op y = .ok u) : u.Represents (.compare op x.term y.term) := by
  obtain ⟨hw, rfl⟩ := eq_of_agree h
  refine ⟨⟨hx.wellFormed, hy.wellFormed, hw⟩, ?_⟩
  rw [ofTerm, Term.normalize, hx.normalize_eq, hy.normalize_eq]

theorem represents_unary (op : UnaryOp) (hx : x.Canonical) :
    (⟨mkUnary op x.term⟩ : Value).Represents (.unary op x.term) :=
  ⟨hx.wellFormed, by rw [ofTerm, Term.normalize, hx.normalize_eq]⟩

theorem represents_compare_zero (op : Comparison) (hx : x.Canonical) :
    (⟨mkCompare op x.term (.zero x.width)⟩ : Value).Represents
      (.compare op x.term (.zero x.width)) :=
  ⟨⟨hx.wellFormed, wellFormed_zero hx.wellFormed.valid, rfl⟩,
    by rw [ofTerm, Term.normalize, hx.normalize_eq]; rfl⟩

theorem represents_extract (hv : v.Canonical) (h : v.extract high low = .ok u) :
    u.Represents (.extract high low v.term) := by
  obtain ⟨hle, hhigh, rfl⟩ := eq_of_extract h
  exact ⟨⟨hv.wellFormed, hle, hhigh⟩, by rw [ofTerm, Term.normalize, hv.normalize_eq]⟩

theorem represents_testBit {i : Nat} (hv : v.Canonical) (hi : i < v.width)
    (h : v.testBit i = .ok u) :
    u.Represents (.compare .eq (.extract i i v.term) (.ofBool true)) := by
  have hbit : (Term.extract i i v.term).WellFormed := ⟨hv.wellFormed, Nat.le_refl i, hi⟩
  obtain ⟨rfl, -⟩ := eq_of_counted h
  refine ⟨⟨hbit, wellFormed_ofBool true, ?_⟩, ?_⟩
  · rw [width_extract, Nat.sub_self]
    rfl
  · rw [ofTerm, Term.normalize, Term.normalize, hv.normalize_eq]
    rfl

theorem eq_of_checkExtension {u' : Value}
    (h : (do v.checkExtension bits; return u) = Except.ok u') :
    bits + v.width < Width.limit ∧ u' = u := by
  simp only [checkExtension] at h
  split at h
  · rename_i hlt
    cases h
    exact ⟨by omega, rfl⟩
  · cases h

theorem represents_zeroExtend (hv : v.Canonical) (h : v.zeroExtend bits = .ok u) :
    u.Represents (.zeroExtend bits v.term) := by
  obtain ⟨hlt, rfl⟩ := eq_of_checkExtension h
  exact ⟨⟨hv.wellFormed, hlt⟩, by rw [ofTerm, Term.normalize, hv.normalize_eq]⟩

theorem represents_signExtend (hv : v.Canonical) (h : v.signExtend bits = .ok u) :
    u.Represents (.signExtend bits v.term) := by
  obtain ⟨hlt, rfl⟩ := eq_of_checkExtension h
  exact ⟨⟨hv.wellFormed, hlt⟩, by rw [ofTerm, Term.normalize, hv.normalize_eq]⟩

theorem represents_xnorReduce (hv : v.Canonical) (h : v.xnorReduce = .ok u) :
    u.Represents (.compare .eq
      ((List.range' 1 (v.width - 1)).foldl (xnorNode v.term) (.extract 0 0 v.term))
        (.ofBool true)) := by
  have hpos : 0 < v.width := hv.wellFormed.width_pos
  have hbit : (Term.extract 0 0 v.term).WellFormed := ⟨hv.wellFormed, Nat.le_refl 0, hpos⟩
  obtain ⟨hbits, hone⟩ := foldl_xnorNode_wellFormed hv.wellFormed (List.range' 1 (v.width - 1))
    (fun i hi => mem_upper_bits hi) hbit rfl
  obtain ⟨rfl, -⟩ := eq_of_counted h
  refine ⟨⟨hbits, wellFormed_ofBool true, hone⟩, ?_⟩
  rw [ofTerm, Term.normalize, normalize_foldl_xnorNode hv.normalize_eq, Term.normalize,
    hv.normalize_eq]
  rfl

theorem allWellFormed_terms {vs : List Value} (h : ∀ v ∈ vs, v.Canonical) :
    AllWellFormed (vs.map term) := allWellFormed_iff.2 fun t ht => by
  obtain ⟨v, hv, rfl⟩ := List.mem_map.1 ht
  exact (h v hv).wellFormed

theorem allNormal_terms {vs : List Value} (h : ∀ v ∈ vs, v.Canonical) :
    AllNormal (vs.map term) := allNormal_iff.2 fun t ht => by
  obtain ⟨v, hv, rfl⟩ := List.mem_map.1 ht
  rw [← (h v hv).normalize_eq]
  exact normalize_normal _ (h v hv).wellFormed

theorem represents_concat {vs : List Value} (hvs : ∀ v ∈ vs, v.Canonical)
    (hlt : totalWidth (vs.map term) < Width.limit) (h : concat vs = .ok u) :
    u.Represents (.concat (vs.map term)) := by
  have hwf := allWellFormed_terms hvs
  have hnormal := allNormal_terms hvs
  cases vs with
  | nil => cases h
  | cons v vs =>
    obtain ⟨rfl, -⟩ := eq_of_counted h
    refine ⟨⟨List.cons_ne_nil _ _, hwf, hlt⟩, ?_⟩
    rw [ofTerm, Term.normalize, normalizeList_of_normal _ hnormal]

theorem represents_substitute {old new : Value} (hv : v.Canonical) (hnew : new.Canonical)
    (h : v.substitute old new = .ok u) : u.Represents
      (if v.isConcrete then v.term else .replace old.term new.term v.term) := by
  obtain ⟨hw, h⟩ := eq_of_substitute h
  cases hlit : v.isConcrete with
  | true =>
    rw [hlit] at h
    cases h
    exact ⟨hv.wellFormed, hv.ofTerm_term.symm⟩
  | false =>
    rw [hlit] at h
    obtain ⟨rfl, -⟩ := eq_of_counted h
    exact ⟨(replace_wellFormed hnew.wellFormed hw.symm v.term hv.wellFormed).1, rfl⟩

end

end Value

namespace Operation

open Term

/-- The tree that an operation stands for, with nothing simplified. -/
def plain : Operation Value → Term
  | binary op x y => .binary op x.term y.term
  | compare op x y => .compare op x.term y.term
  | combine .or x y => .binary .or x.term y.term
  | combine .and x y => .binary .and x.term y.term
  | combine .replace _ y => y.term
  | isNegative x => .compare .slt x.term (.zero x.width)
  | isNonNegative x => .compare .sge x.term (.zero x.width)
  | complement x | not x => .unary .not x.term
  | negate x => .unary .neg x.term
  | xnorReduce x => .compare .eq
      ((List.range' 1 (x.width - 1)).foldl (xnorNode x.term) (.extract 0 0 x.term)) (.ofBool true)
  | bitAt x i => .extract i i x.term
  | extract x high low => .extract high low x.term
  | extractBytes x high low => .extract (high * 8 - 1) (low * 8) x.term
  | truncateTo x n => .extract (n - 1) 0 x.term
  | zeroExtend x bits => .zeroExtend bits x.term
  | signExtend x bits => .signExtend bits x.term
  | concat xs => .concat (xs.map Value.term)
  | upperHalf x => .extract (x.width - 1) (x.width / 2) x.term
  | lowerHalf x => .extract (x.width / 2 - 1) 0 x.term
  | topBit x => .compare .eq (.extract (x.width - 1) (x.width - 1) x.term) (.ofBool true)
  | secondBit x => .compare .eq (.extract (x.width - 2) (x.width - 2) x.term) (.ofBool true)
  | bottomBit x => .compare .eq (.extract 0 0 x.term) (.ofBool true)

end Operation

/-- Anything that the algebra can be asked for: an operation, an operator given by its symbol, or a
substitution. -/
inductive AlgebraCall where
  | operation (o : Operation Value)
  | arithmetic (symbol : String) (x y : Value)
  | comparison (symbol : String) (x y : Value)
  | substitute (v old new : Value)

namespace AlgebraCall

open Term

def args : AlgebraCall → List Value
  | operation o => o.args
  | arithmetic _ x y | comparison _ x y => [x, y]
  | substitute v old new => [v, old, new]

def run : AlgebraCall → Except Error Value
  | operation o => o.run
  | arithmetic symbol x y => x.arithmetic symbol y
  | comparison symbol x y => x.comparison symbol y
  | substitute v old new => v.substitute old new

/-- The tree that a call stands for, with nothing simplified. An unknown symbol has none. -/
def plain? : AlgebraCall → Option Term
  | operation o => some o.plain
  | arithmetic symbol x y => (BinaryOp.ofSymbol? symbol).map (.binary · x.term y.term)
  | comparison symbol x y => (Comparison.ofSymbol? symbol).map (.compare · x.term y.term)
  | substitute v old new =>
    some (if v.isConcrete then v.term else .replace old.term new.term v.term)

/-- What a call comes down to, with the plain tree that this stands for. The result is one of the
arguments, or it is made of them by the rules for one kind of node. -/
inductive Makes (c : AlgebraCall) : Term → Value → Prop
  | argument {v : Value} (hv : v ∈ c.args) : Makes c v.term v
  | unary {op : UnaryOp} {x : Value} (hx : x ∈ c.args) :
    Makes c (.unary op x.term) ⟨mkUnary op x.term⟩
  | binary {op : BinaryOp} {x y u : Value} (hx : x ∈ c.args) (hy : y ∈ c.args)
    (h : x.binary op y = .ok u) : Makes c (.binary op x.term y.term) u
  | compare {op : Comparison} {x y u : Value} (hx : x ∈ c.args) (hy : y ∈ c.args)
    (h : x.compare op y = .ok u) : Makes c (.compare op x.term y.term) u
  | compareZero {op : Comparison} {x : Value} (hx : x ∈ c.args) :
    Makes c (.compare op x.term (.zero x.width)) ⟨mkCompare op x.term (.zero x.width)⟩
  | extract {x u : Value} {high low : Nat} (hx : x ∈ c.args) (h : x.extract high low = .ok u) :
    Makes c (.extract high low x.term) u
  | testBit {x u : Value} {i : Nat} (hx : x ∈ c.args) (hi : 0 < x.width → i < x.width)
    (h : x.testBit i = .ok u) : Makes c (.compare .eq (.extract i i x.term) (.ofBool true)) u
  | xnorReduce {x u : Value} (hx : x ∈ c.args) (h : x.xnorReduce = .ok u) :
    Makes c (Operation.plain (.xnorReduce x)) u
  | zeroExtend {x u : Value} {bits : Nat} (hx : x ∈ c.args) (h : x.zeroExtend bits = .ok u) :
    Makes c (.zeroExtend bits x.term) u
  | signExtend {x u : Value} {bits : Nat} (hx : x ∈ c.args) (h : x.signExtend bits = .ok u) :
    Makes c (.signExtend bits x.term) u
  | concat {vs : List Value} {u : Value} (hc : c = operation (.concat vs))
    (h : Value.concat vs = .ok u) : Makes c (.concat (vs.map Value.term)) u
  | substitute {v old new u : Value} (hv : v ∈ c.args) (hnew : new ∈ c.args)
    (h : v.substitute old new = .ok u) :
    Makes c (if v.isConcrete then v.term else .replace old.term new.term v.term) u

theorem makes_of_operation {o : Operation Value} {u : Value} (hrun : o.run = .ok u) :
    Makes (operation o) o.plain u := by
  cases o with
  | concat vs => exact .concat rfl hrun
  | binary op x y =>
    exact .binary (by simp [args, Operation.args]) (by simp [args, Operation.args]) hrun
  | compare op x y =>
    exact .compare (by simp [args, Operation.args]) (by simp [args, Operation.args]) hrun
  | combine k x y =>
    have hx : x ∈ args (operation (.combine k x y)) := by simp [args, Operation.args]
    have hy : y ∈ args (operation (.combine k x y)) := by simp [args, Operation.args]
    cases k with
    | or => exact .binary hx hy hrun
    | and => exact .binary hx hy hrun
    | replace =>
      obtain ⟨-, rfl⟩ := Value.eq_of_agree hrun
      exact .argument hy
  | isNegative x | isNonNegative x =>
    cases hrun
    exact .compareZero List.mem_cons_self
  | complement x | negate x =>
    cases hrun
    exact .unary List.mem_cons_self
  | not x =>
    simp only [Operation.run, Value.not] at hrun
    split at hrun
    · cases hrun
      exact .unary List.mem_cons_self
    · cases hrun
  | xnorReduce x => exact .xnorReduce List.mem_cons_self hrun
  | bitAt x i => exact .extract List.mem_cons_self hrun
  | extract x high low => exact .extract List.mem_cons_self hrun
  | extractBytes x high low =>
    simp only [Operation.run, Value.extractBytes] at hrun
    split at hrun
    · exact .extract List.mem_cons_self hrun
    · cases hrun
  | truncateTo x n =>
    simp only [Operation.run, Value.truncateTo] at hrun
    split at hrun
    · cases hrun
    · exact .extract List.mem_cons_self hrun
  | zeroExtend x bits => exact .zeroExtend List.mem_cons_self hrun
  | signExtend x bits => exact .signExtend List.mem_cons_self hrun
  | upperHalf x => exact .extract List.mem_cons_self (Value.eq_of_upperHalf hrun)
  | lowerHalf x => exact .extract List.mem_cons_self (Value.eq_of_lowerHalf hrun)
  | topBit x => exact .testBit List.mem_cons_self (by omega) (Value.eq_of_topBit hrun)
  | secondBit x =>
    simp only [Operation.run, Value.secondBit] at hrun
    split at hrun
    · cases hrun
    · exact .testBit List.mem_cons_self (by omega) hrun
  | bottomBit x => exact .testBit List.mem_cons_self id hrun

theorem run_makes {c : AlgebraCall} {u : Value} (hrun : c.run = .ok u) :
    ∃ t, c.plain? = some t ∧ Makes c t u := by
  cases c with
  | operation o => exact ⟨_, rfl, makes_of_operation hrun⟩
  | arithmetic symbol x y =>
    simp only [run, Value.arithmetic] at hrun
    split at hrun
    · rename_i op hop
      exact ⟨.binary op x.term y.term, by rw [plain?, hop]; rfl,
        .binary (by simp [args]) (by simp [args]) hrun⟩
    · cases hrun
  | comparison symbol x y =>
    simp only [run, Value.comparison] at hrun
    split at hrun
    · rename_i op hop
      exact ⟨.compare op x.term y.term, by rw [plain?, hop]; rfl,
        .compare (by simp [args]) (by simp [args]) hrun⟩
    · cases hrun
  | substitute v old new => exact ⟨_, rfl, .substitute (by simp [args]) (by simp [args]) hrun⟩

theorem run_represents {c : AlgebraCall} {u : Value} (h : ∀ v ∈ c.args, v.Canonical)
    (hwidth : ∀ vs, c = operation (.concat vs) →
      Term.totalWidth (vs.map Value.term) < Width.limit) (hrun : c.run = .ok u) :
    ∃ t, c.plain? = some t ∧ u.Represents t := by
  obtain ⟨t, ht, hmakes⟩ := run_makes hrun
  refine ⟨t, ht, ?_⟩
  cases hmakes with
  | argument hv => exact ⟨(h _ hv).wellFormed, (h _ hv).ofTerm_term.symm⟩
  | unary hx => exact Value.represents_unary _ (h _ hx)
  | binary hx hy hu => exact Value.represents_binary (h _ hx) (h _ hy) hu
  | compare hx hy hu => exact Value.represents_compare (h _ hx) (h _ hy) hu
  | compareZero hx => exact Value.represents_compare_zero _ (h _ hx)
  | extract hx hu => exact Value.represents_extract (h _ hx) hu
  | testBit hx hi hu =>
    exact Value.represents_testBit (h _ hx) (hi (h _ hx).wellFormed.width_pos) hu
  | xnorReduce hx hu => exact Value.represents_xnorReduce (h _ hx) hu
  | zeroExtend hx hu => exact Value.represents_zeroExtend (h _ hx) hu
  | signExtend hx hu => exact Value.represents_signExtend (h _ hx) hu
  | concat hc hu =>
    subst hc
    exact Value.represents_concat h (hwidth _ rfl) hu
  | substitute hv hnew hu => exact Value.represents_substitute (h _ hv) (h _ hnew) hu

/-- On canonical arguments a result is canonical, and it is the value of the plain tree over the
terms of the arguments. -/
theorem run_canonical {c : AlgebraCall} {u : Value} (h : ∀ v ∈ c.args, v.Canonical)
    (hwidth : ∀ vs, c = operation (.concat vs) →
      Term.totalWidth (vs.map Value.term) < Width.limit) (hrun : c.run = .ok u) :
    u.Canonical ∧ c.plain?.map Value.ofTree = some (.ok u) := by
  obtain ⟨t, ht, hu⟩ := run_represents h hwidth hrun
  refine ⟨hu.canonical, ?_⟩
  rw [ht, Option.map_some, Value.ofTree_eq hu.wellFormed, ← hu.eq_ofTerm]

/-- Two halves of a symbol with zeros above, which the rules put together. -/
theorem run_canonical_halves :
    let high : Value := ⟨.zeroExtend 8 (.extract 7 4 (.sym "x" 8))⟩
    let low : Value := ⟨.extract 3 0 (.sym "x" 8)⟩
    let c : AlgebraCall := operation (.concat [.ofBool false, high, low])
    (∀ v ∈ c.args, v.Canonical) ∧ ∃ u, c.run = .ok u ∧ u.Canonical ∧
      c.plain?.map Value.ofTree = some (.ok u) := by
  intro high low c
  have h : ∀ v ∈ c.args, v.Canonical := by decide
  refine ⟨h, _, rfl, run_canonical h ?_ rfl⟩
  intro vs hc
  simp only [c, operation.injEq, Operation.concat.injEq] at hc
  subst hc
  decide

end AlgebraCall

end SymWord
