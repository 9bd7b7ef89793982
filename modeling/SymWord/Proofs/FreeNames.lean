import SymWord.Proofs.Satisfiability
import SymWord.Proofs.Substitution

/-!
# What depends on the free names

The declarations of a term say what evaluation needs. It goes through exactly when they are
bitvectors that are bound (`evaluate_isSome_iff`). Nothing else about the bindings can be seen in
the number, nor anything of a binding above the width at which the term uses it (`evaluate_congr`).

No rule for normal forms brings in a declaration, since what replaces a term mentions nothing new. A
function is declared with the widths of its arguments and an array with that of its index, so this
holds only because normalization and substitution keep the width of every argument. A symbol
occurs in a term exactly when it is declared (`contains_sym_iff`), so it is gone once it has been
replaced by something in which it does not occur.
-/

namespace SymWord

/-- Both have nothing for a declared bitvector, or numbers that are the same word at its width. -/
def Bindings.AgreeOn (b b' : Bindings) (ds : List Declaration) : Prop :=
  ∀ n w, .constant n w ∈ ds → (b n).map (· % 2 ^ w) = (b' n).map (· % 2 ^ w)

namespace Bindings.AgreeOn

variable {b b' : Bindings} {ds : List Declaration}

theorem symm (h : b.AgreeOn b' ds) : b'.AgreeOn b ds := fun n w hd => (h n w hd).symm

theorem bound (h : b.AgreeOn b' ds) {d : Declaration} (hd : d ∈ ds) (hb : d.Bound b) :
    d.Bound b' := by
  obtain ⟨n, w, rfl⟩ := Declaration.eq_constant hb.isConstant
  have hmap := congrArg Option.isSome (h n w hd)
  rw [Option.isSome_map, Option.isSome_map] at hmap
  exact hmap.symm.trans hb

/-- Functions and arrays are zero on both sides, and so is what is not bound. -/
theorem ofBindings (h : b.AgreeOn b' ds) :
    (Interpretation.ofBindings b).AgreeOn (.ofBindings b') ds where
  symbol n w hd := by
    have hmap := congrArg (Option.getD · 0) (h n w hd)
    have hgetD : ∀ o : Option Nat, (o.map (· % 2 ^ w)).getD 0 = o.getD 0 % 2 ^ w := by
      rintro (_ | v)
      · exact (Nat.zero_mod _).symm
      · rfl
    simp only [hgetD] at hmap
    rw [Word.truncate_eq, Word.truncate_eq]
    exact hmap
  function := rfl
  array := rfl

end Bindings.AgreeOn

namespace Term

variable {b b' : Bindings} {t : Term}

theorem forall_bound_iff {ds : List Declaration} : (∀ d ∈ ds, d.Bound b) ↔
    (∀ n w, .constant n w ∈ ds → (b n).isSome = true) ∧ ∀ d ∈ ds, d.isConstant = true := by
  constructor
  · intro h
    exact ⟨fun n w hd => h _ hd, fun d hd => (h d hd).isConstant⟩
  · rintro ⟨hbound, hconstant⟩ d hd
    obtain ⟨n, w, rfl⟩ := Declaration.eq_constant (hconstant d hd)
    exact hbound n w hd

theorem evaluate_isSome_iff : (t.evaluate b).isSome = true ↔ ∀ d ∈ t.declarations, d.Bound b := by
  simp only [Option.isSome_iff_exists, mem_declarations,
    evaluate_eq_some_iff (Interpretation.ofBindings_extends b), exists_and_left, exists_eq',
    and_true]

theorem evaluate_of_agreeOn (h : b.AgreeOn b' t.declarations) {v : Nat}
    (hv : t.evaluate b = some v) : t.evaluate b' = some v := by
  obtain ⟨hbound, hdenote⟩ := (evaluate_eq_some_iff (Interpretation.ofBindings_extends b)).1 hv
  refine (evaluate_eq_some_iff (Interpretation.ofBindings_extends b')).2 ⟨fun d hd => ?_, ?_⟩
  · exact h.bound (mem_declarations.2 hd) (hbound d hd)
  · have hagree := h.ofBindings.subset fun d hd => mem_declarations.2 hd
    rw [← denote_congr t hagree, hdenote]

theorem evaluate_congr (h : b.AgreeOn b' t.declarations) : t.evaluate b = t.evaluate b' :=
  Option.ext fun _ => ⟨evaluate_of_agreeOn h, evaluate_of_agreeOn h.symm⟩

/-- Each declaration stands in the list once. Evaluation gives a number exactly when every
declaration is a bitvector that is bound. It depends on the words of the declared bitvectors only,
and gives a word of the term's width. -/
theorem declarations_decide_evaluation {t : Term} (h : t.WellFormed) (b : Bindings) :
    t.declarations.Nodup
    ∧ ((t.evaluate b).isSome = true ↔
      (∀ n w, .constant n w ∈ t.declarations → (b n).isSome = true)
        ∧ ∀ d ∈ t.declarations, d.isConstant = true)
    ∧ (∀ b', b.AgreeOn b' t.declarations → t.evaluate b = t.evaluate b')
    ∧ ∀ v, t.evaluate b = some v → v < 2 ^ t.width :=
  ⟨Query.nodup_eraseDups _, evaluate_isSome_iff.trans forall_bound_iff,
    fun _ hagree => evaluate_congr hagree, fun _ hv => evaluate_lt h hv⟩

/-- A name at two widths, under two bindings that differ above the greater one. -/
theorem declarations_decide_evaluation_two_widths :
    let t := concat [sym "x" 8, binary .add (sym "x" 4) (lit 3 4)]
    t.declarations.Nodup ∧ (t.evaluate fun _ => some 0xFFF).isSome = true
      ∧ (t.evaluate fun _ => some 0xFFF) = (t.evaluate fun _ => some 0x1FF)
      ∧ ∀ v, (t.evaluate fun _ => some 0xFFF) = some v → v < 2 ^ t.width := by
  intro t
  obtain ⟨hnodup, hisSome, hcongr, hlt⟩ :=
    declarations_decide_evaluation (t := t) (by decide) fun _ => some 0xFFF
  have hdecls : t.declarations = [.constant "x" 8, .constant "x" 4] := by rfl
  refine ⟨hnodup, hisSome.2 ⟨fun _ _ _ => rfl, ?_⟩, hcongr _ fun n w hd => ?_, hlt⟩
  · simp [hdecls, Declaration.isConstant]
  · simp only [hdecls, List.mem_cons, Declaration.constant.injEq, List.not_mem_nil,
      or_false] at hd
    rcases hd with ⟨-, rfl⟩ | ⟨-, rfl⟩ <;> rfl

/-! ## Names after normalization and substitution -/

mutual

/-- To look for a symbol is to look for its declaration. -/
theorem contains_sym_iff {n : String} {w : Nat} : ∀ (t : Term),
    contains (sym n w) t = true ↔ .constant n w ∈ t.mentions
  | lit _ _ => by simp [contains, mentions]
  | sym m k => by simp [contains, mentions, eq_comm (a := m), eq_comm (a := k)]
  | unary _ t => by simp [contains, mentions, contains_sym_iff t]
  | binary _ l r => by simp [contains, mentions, contains_sym_iff l, contains_sym_iff r]
  | compare _ l r => by simp [contains, mentions, contains_sym_iff l, contains_sym_iff r]
  | extract _ _ t => by simp [contains, mentions, contains_sym_iff t]
  | concat ts => by simp [contains, mentions, anyContains_sym_iff ts]
  | zeroExtend _ t => by simp [contains, mentions, contains_sym_iff t]
  | signExtend _ t => by simp [contains, mentions, contains_sym_iff t]
  | apply _ ts _ => by simp [contains, mentions, anyContains_sym_iff ts]
  | select _ t _ => by simp [contains, mentions, contains_sym_iff t]

theorem anyContains_sym_iff {n : String} {w : Nat} : ∀ (ts : List Term),
    anyContains (sym n w) ts = true ↔ .constant n w ∈ listMentions ts
  | [] => by simp [anyContains, listMentions]
  | t :: ts => by
    simp [anyContains, listMentions, contains_sym_iff t, anyContains_sym_iff ts]

end

theorem declarations_subset {s t : Term} (h : Replaces s t) : s.declarations ⊆ t.declarations :=
  fun _ hd => mem_declarations.2 (h.mentions_subset (mem_declarations.1 hd))

end Term

namespace Value

open Term

/-- Normalization declares nothing new. Substitution for a symbol declares what was declared before,
without the symbol, and what comes with the new term. -/
theorem declarations_substitute :
    (∀ t : Term, t.WellFormed → t.normalize.declarations ⊆ t.declarations)
    ∧ ∀ (v new : Value) (n : String) (w : Nat), v.Canonical → new.Canonical → new.width = w →
      contains (.sym n w) new.term = false →
        ∃ u, v.substitute ⟨.sym n w⟩ new = .ok u ∧ .constant n w ∉ u.term.declarations
          ∧ ∀ d ∈ u.term.declarations, d ∈ v.term.declarations ∨ d ∈ new.term.declarations := by
  refine ⟨fun t ht => declarations_subset (normalize_replaces t ht), ?_⟩
  intro v new n w hv hnew hw hout
  have hfresh : .constant n w ∉ new.term.mentions := by
    rw [← contains_sym_iff, hout]
    exact Bool.false_ne_true
  have hwidth : new.term.width = (Term.sym n w).width := hw
  obtain ⟨u, hu, hrepresents⟩ := substitute_sym hv hnew hwidth
  have hmentions : ∀ d ∈ u.term.declarations,
      d ∈ new.term.mentions ∨ d ∈ v.term.mentions ∧ d ≠ .constant n w := by
    intro d hd
    have hreplaced := hrepresents.replaces.mentions_subset (mem_declarations.1 hd)
    exact (mentions_replace hnew.wellFormed hwidth v.term hv.wellFormed d hreplaced).imp_right
      (And.imp_right fun hne => hne n w rfl)
  refine ⟨u, hu, fun hd => ?_, fun d hd => ?_⟩
  · rcases hmentions _ hd with hd | ⟨-, hne⟩
    · exact hfresh hd
    · exact hne rfl
  · rcases hmentions d hd with hd | ⟨hd, -⟩
    · exact .inr (mem_declarations.2 hd)
    · exact .inl (mem_declarations.2 hd)

/-- The argument of a function is normalized at its width, and a symbol in it is replaced by a read
from an array at an index of the same name. -/
theorem declarations_substitute_read :
    let t : Term := .apply "f" [.extract 7 0 (.concat [.sym "y" 8, .sym "x" 8])] 16
    let v : Value := ⟨.apply "f" [.binary .add (.sym "x" 8) (.lit 1 8)] 16⟩
    let new : Value := ⟨.select "m" (.sym "x" 16) 8⟩
    t.normalize.declarations ⊆ t.declarations
      ∧ ∃ u, v.substitute ⟨.sym "x" 8⟩ new = .ok u ∧ .constant "x" 8 ∉ u.term.declarations
        ∧ ∀ d ∈ u.term.declarations, d ∈ v.term.declarations ∨ d ∈ new.term.declarations := by
  intro t v new
  exact ⟨declarations_substitute.1 t (by decide),
    declarations_substitute.2 v new "x" 8 (by decide) (by decide) rfl (by decide)⟩

end Value

end SymWord
