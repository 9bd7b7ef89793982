import SymWord.Proofs.CanonicalValues
import SymWord.Proofs.ExhaustiveSearch

/-!
# Substitution

Substitution puts a term in the place of another one of the same width and normalizes what comes
out. Where the two stand for the same number nothing changes in meaning (`denote_replace`), and what
is mentioned afterwards was mentioned before or comes with the new term (`mentions_replace`). So
equals may be replaced by equals, whatever tree stands on either side. A symbol that is replaced is
not mentioned any more unless the new term brings it back.

Replacing the symbols of a value by their words in a model, one after another, keeps the number that
the value has under the model and leaves fewer symbols each time. Once no symbol is left the value
is a literal, since normalization folds every closed term (`isLit_normalize`), and so it is what
the model evaluates the value to. Nothing here depends on the order of the symbols.
-/

namespace SymWord

namespace Term

mutual

theorem denote_replace {I : Interpretation} {old new : Term} (hnew : new.WellFormed)
    (hw : new.width = old.width) (heq : new.denote I = old.denote I) :
    ∀ (t : Term), t.WellFormed → (replace old new t).denote I = t.denote I := by
  intro t h
  rw [replace.eq_def]
  split
  · rename_i ht
    rw [ht, heq]
  match t, h with
  | lit _ _, _ | sym _ _, _ => rfl
  | unary _ t, h =>
    rw [denote, denote, denote_replace hnew hw heq t h, (replace_wellFormed hnew hw t h).2]
  | binary _ l r, h =>
    rw [denote, denote, denote_replace hnew hw heq l h.1, denote_replace hnew hw heq r h.2.1,
      (replace_wellFormed hnew hw l h.1).2]
  | compare _ l r, h =>
    rw [denote, denote, denote_replace hnew hw heq l h.1, denote_replace hnew hw heq r h.2.1,
      (replace_wellFormed hnew hw l h.1).2]
  | extract _ _ t, h => rw [denote, denote, denote_replace hnew hw heq t h.1]
  | concat ts, h =>
    rw [denote, denote]
    exact denoteParts_congr 0 (replaceList_wellFormed hnew hw ts h.2.1).2
      (denoteList_replaceList hnew hw heq ts h.2.1)
  | zeroExtend _ t, h => rw [denote, denote, denote_replace hnew hw heq t h.1]
  | signExtend _ t, h =>
    rw [denote, denote, denote_replace hnew hw heq t h.1, (replace_wellFormed hnew hw t h.1).2]
  | apply _ ts _, h =>
    rw [denote, denote, denoteList_replaceList hnew hw heq ts h.1,
      (replaceList_wellFormed hnew hw ts h.1).2]
  | select _ t _, h =>
    rw [denote, denote, denote_replace hnew hw heq t h.1, (replace_wellFormed hnew hw t h.1).2]

theorem denoteList_replaceList {I : Interpretation} {old new : Term} (hnew : new.WellFormed)
    (hw : new.width = old.width) (heq : new.denote I = old.denote I) :
    ∀ (ts : List Term), AllWellFormed ts → denoteList I (replaceList old new ts) = denoteList I ts
  | [], _ => rfl
  | t :: ts, h => by
    rw [replaceList, denoteList, denoteList, denote_replace hnew hw heq t h.1,
      denoteList_replaceList hnew hw heq ts h.2]

end

mutual

/-- What is mentioned after a replacement comes from the new term, or was there before. A symbol
that has been replaced is no longer there. -/
theorem mentions_replace {old new : Term} (hnew : new.WellFormed) (hw : new.width = old.width) :
    ∀ (t : Term), t.WellFormed → ∀ d ∈ (replace old new t).mentions, d ∈ new.mentions ∨
      d ∈ t.mentions ∧ ∀ n w, old = sym n w → d ≠ .constant n w := by
  intro t h d hd
  rw [replace.eq_def] at hd
  split at hd
  · exact .inl hd
  rename_i hne
  match t, h with
  | lit _ _, _ => simp [mentions] at hd
  | sym n' w', _ =>
    refine .inr ⟨hd, ?_⟩
    rintro n w rfl rfl
    simp only [mentions, List.mem_singleton, Declaration.constant.injEq] at hd
    exact hne (by rw [hd.1, hd.2])
  | unary _ t, h => exact mentions_replace hnew hw t h d hd
  | binary _ l r, h | compare _ l r, h =>
    rcases List.mem_append.1 hd with hd | hd
    · exact (mentions_replace hnew hw l h.1 d hd).imp_right (And.imp_left (List.mem_append_left _))
    · exact (mentions_replace hnew hw r h.2.1 d hd).imp_right
        (And.imp_left (List.mem_append_right _))
  | extract _ _ t, h => exact mentions_replace hnew hw t h.1 d hd
  | concat ts, h => exact listMentions_replaceList hnew hw ts h.2.1 d hd
  | zeroExtend _ t, h => exact mentions_replace hnew hw t h.1 d hd
  | signExtend _ t, h => exact mentions_replace hnew hw t h.1 d hd
  | apply _ ts _, h =>
    rw [mentions, (replaceList_wellFormed hnew hw ts h.1).2] at hd
    rcases List.mem_cons.1 hd with rfl | hd
    · exact .inr ⟨List.mem_cons_self, by simp⟩
    · exact (listMentions_replaceList hnew hw ts h.1 d hd).imp_right
        (And.imp_left (List.mem_cons_of_mem _))
  | select _ t _, h =>
    rw [mentions, (replace_wellFormed hnew hw t h.1).2] at hd
    rcases List.mem_cons.1 hd with rfl | hd
    · exact .inr ⟨List.mem_cons_self, by simp⟩
    · exact (mentions_replace hnew hw t h.1 d hd).imp_right
        (And.imp_left (List.mem_cons_of_mem _))

theorem listMentions_replaceList {old new : Term} (hnew : new.WellFormed)
    (hw : new.width = old.width) : ∀ (ts : List Term), AllWellFormed ts →
      ∀ d ∈ listMentions (replaceList old new ts), d ∈ new.mentions ∨
        d ∈ listMentions ts ∧ ∀ n w, old = sym n w → d ≠ .constant n w
  | [], _, d, hd => by simp [replaceList, listMentions] at hd
  | t :: ts, h, d, hd => by
    rcases List.mem_append.1 hd with hd | hd
    · exact (mentions_replace hnew hw t h.1 d hd).imp_right (And.imp_left (List.mem_append_left _))
    · exact (listMentions_replaceList hnew hw ts h.2 d hd).imp_right
        (And.imp_left (List.mem_append_right _))

end

theorem evaluate_replace {b : Bindings} {old new t : Term} {k n : Nat} (hnew : new.WellFormed)
    (hw : new.width = old.width) (ht : t.WellFormed) (hold : old.evaluate b = some n)
    (heq : new.evaluate b = some n) (hk : t.evaluate b = some k) :
    (replace old new t).evaluate b = some k := by
  have hI := Interpretation.ofBindings_extends b
  obtain ⟨-, hold⟩ := (evaluate_eq_some_iff hI).1 hold
  obtain ⟨hbound, heq⟩ := (evaluate_eq_some_iff hI).1 heq
  obtain ⟨hbound', hk⟩ := (evaluate_eq_some_iff hI).1 hk
  refine (evaluate_eq_some_iff hI).2 ⟨fun d hd => ?_, ?_⟩
  · rcases mentions_replace hnew hw t ht d hd with hd | ⟨hd, -⟩
    · exact hbound d hd
    · exact hbound' d hd
  · rw [denote_replace hnew hw (heq.trans hold.symm) t ht, hk]

/-! ## Closed terms -/

theorem isLit_mkZeroExtend {t : Term} (bits : Nat) (h : t.isLit = true) :
    (mkZeroExtend bits t).isLit = true := by
  obtain ⟨v, hv⟩ := eq_lit_of_isLit h
  rw [hv, mkZeroExtend]
  split <;> rfl

theorem isLit_mkSignExtend {t : Term} (bits : Nat) (h : t.isLit = true) :
    (mkSignExtend bits t).isLit = true := by
  obtain ⟨v, hv⟩ := eq_lit_of_isLit h
  rw [hv, mkSignExtend]
  split <;> rfl

mutual

/-- A term without free names is folded to a literal. -/
theorem isLit_normalize : ∀ (t : Term), t.WellFormed → t.mentions = [] → t.normalize.isLit = true
  | lit _ _, _, _ => rfl
  | sym _ _, _, hm => by simp [mentions] at hm
  | unary op t, h, hm => by
    obtain ⟨v, hv⟩ := eq_lit_of_isLit (isLit_normalize t h hm)
    rw [Term.normalize, hv]
    rfl
  | binary op l r, h, hm => by
    obtain ⟨hml, hmr⟩ := List.append_eq_nil_iff.1 hm
    obtain ⟨v, hv⟩ := eq_lit_of_isLit (isLit_normalize l h.1 hml)
    obtain ⟨v', hv'⟩ := eq_lit_of_isLit (isLit_normalize r h.2.1 hmr)
    rw [Term.normalize, hv, hv']
    rfl
  | compare op l r, h, hm => by
    obtain ⟨hml, hmr⟩ := List.append_eq_nil_iff.1 hm
    obtain ⟨v, hv⟩ := eq_lit_of_isLit (isLit_normalize l h.1 hml)
    obtain ⟨v', hv'⟩ := eq_lit_of_isLit (isLit_normalize r h.2.1 hmr)
    rw [Term.normalize, hv, hv']
    rfl
  | extract high low t, h, hm => by
    obtain ⟨v, hv⟩ := eq_lit_of_isLit (isLit_normalize t h.1 hm)
    rw [Term.normalize, hv]
    exact isLit_mkExtract high low v _
  | concat ts, h, hm => by
    rw [Term.normalize]
    refine isLit_mkConcat ?_ (isLit_normalizeList ts h.2.1 hm)
    cases ts with
    | nil => exact absurd rfl h.1
    | cons t ts => simp [normalizeList]
  | zeroExtend bits t, h, hm => isLit_mkZeroExtend bits (isLit_normalize t h.1 hm)
  | signExtend bits t, h, hm => isLit_mkSignExtend bits (isLit_normalize t h.1 hm)
  | apply _ _ _, _, hm => by simp [mentions] at hm
  | select _ _ _, _, hm => by simp [mentions] at hm

theorem isLit_normalizeList : ∀ (ts : List Term), AllWellFormed ts → listMentions ts = [] →
    ∀ u ∈ normalizeList ts, u.isLit = true
  | [], _, _, u, hu => by simp [normalizeList] at hu
  | t :: ts, h, hm, u, hu => by
    obtain ⟨hmt, hmts⟩ := List.append_eq_nil_iff.1 hm
    rcases List.mem_cons.1 hu with rfl | hu
    · exact isLit_normalize t h.1 hmt
    · exact isLit_normalizeList ts h.2 hmts u hu

end

end Term

namespace Value

open Term

variable {v u new : Value} {m : Model} {n : String} {w : Nat}

theorem Canonical.isConcrete_of_closed (h : v.Canonical) (hm : v.term.mentions = []) :
    v.isConcrete = true := by
  have hlit := isLit_normalize v.term h.wellFormed hm
  rwa [h.normalize_eq] at hlit

theorem substitute_eq {old : Value} (hv : v.Canonical) (hnew : new.Canonical)
    (hw : old.width = new.width) : v.substitute old new
      = .ok (if v.isConcrete then v else ofTerm (replace old.term new.term v.term)) := by
  have hwf := (replace_wellFormed hnew.wellFormed hw.symm v.term hv.wellFormed).1
  rw [substitute, agree, if_pos hw, ofTree_eq hwf]
  cases v.isConcrete <;> rfl

/-- Whatever is replaced, what comes out stands for the same number wherever the old and the new
term do. The widths have to agree, and nothing else can go wrong. -/
theorem substitute_equals (old new : Value) :
    (new.Canonical → old.width = new.width → ∀ v : Value, v.Canonical →
      ∃ u, v.substitute old new = .ok u ∧ u.Canonical ∧ u.width = v.width
        ∧ (∀ I, old.term.denote I = new.term.denote I → u.term.denote I = v.term.denote I)
        ∧ ∀ b k n, v.term.evaluate b = some k → old.term.evaluate b = some n →
          new.term.evaluate b = some n → u.term.evaluate b = some k)
      ∧ (old.width ≠ new.width → ∀ v : Value,
        v.substitute old new = .error (.widthMismatch old.width new.width)) := by
  refine ⟨fun hnew hw v hv => ⟨_, substitute_eq hv hnew hw, ?_⟩, fun hw v => ?_⟩
  · split
    · exact ⟨hv, rfl, fun _ _ => rfl, fun _ _ _ hk _ _ => hk⟩
    -- a symbolic value is rebuilt, and normalizing the rebuilt tree changes nothing
    obtain ⟨hwf, hwidth⟩ := replace_wellFormed hnew.wellFormed hw.symm v.term hv.wellFormed
    have hrep := normalize_replaces _ hwf
    refine ⟨canonical_ofTerm hwf, hrep.width_eq.trans hwidth, fun I hI => ?_,
      fun b k n hk hold hn => ?_⟩
    · exact (hrep.denote_eq I).trans
        (denote_replace hnew.wellFormed hw.symm hI.symm v.term hv.wellFormed)
    · exact hrep.evaluate (evaluate_replace hnew.wellFormed hw.symm hv.wellFormed hold hn hk)
  · rw [substitute, agree, if_neg hw]
    rfl

/-- A sum of two symbols is replaced by a third one, alone and inside a longer sum. -/
theorem substitute_equals_sum :
    let sum : Term := .binary .add (.sym "x" 8) (.sym "y" 8)
    let v : Value := ⟨.concat [.binary .mul sum (.binary .add sum (.lit 1 8)), .sym "x" 8]⟩
    let b : Bindings := fun n => some (if n = "x" then 3 else if n = "y" then 4 else 7)
    (∃ u, v.substitute ⟨sum⟩ ⟨.sym "z" 8⟩ = .ok u ∧ u.width = 16
      ∧ u.term.evaluate b = some 0x3803)
      ∧ v.substitute ⟨sum⟩ ⟨.sym "z" 16⟩ = .error (.widthMismatch 8 16) := by
  intro sum v b
  obtain ⟨u, hu, -, hwidth, -, heval⟩ :=
    (substitute_equals ⟨sum⟩ ⟨.sym "z" 8⟩).1 (by decide) rfl v (by decide)
  exact ⟨⟨u, hu, hwidth, heval b _ 7 (by decide) (by decide) (by decide)⟩,
    (substitute_equals ⟨sum⟩ ⟨.sym "z" 16⟩).2 (by decide) v⟩

/-- Also a concrete value, which is left alone, has the symbol replaced. -/
theorem substitute_sym (hv : v.Canonical) (hnew : new.Canonical)
    (hw : new.term.width = (sym n w).width) :
    ∃ u, v.substitute ⟨.sym n w⟩ new = .ok u
      ∧ u.Represents (replace (.sym n w) new.term v.term) := by
  have hrun : v.substitute ⟨.sym n w⟩ new = _ := substitute_eq hv hnew hw.symm
  have hrep := represents_substitute hv hnew hrun
  have hreplace : (if v.isConcrete then v.term else replace (.sym n w) new.term v.term)
      = replace (.sym n w) new.term v.term := by
    split
    · rename_i hlit
      obtain ⟨k, hk⟩ := eq_lit_of_isLit hlit
      rw [hk, replace.eq_def, if_neg (by simp)]
    · rfl
  rw [hreplace] at hrep
  exact ⟨_, hrun, hrep⟩

/-- The value with one symbol replaced by what the model has for it, if it has anything. -/
def instantiate (m : Model) (v : Value) (c : String × Nat) : Except Error Value :=
  match m.get? c.1 with
  | some x => v.substitute ⟨.sym c.1 c.2⟩ x
  | none => .ok v

/-- What is left of `v` when some of its symbols have been replaced by their words in the model. -/
structure Remainder (m : Model) (v u : Value) (replaced : List (String × Nat)) : Prop where
  canonical : u.Canonical
  width_eq : u.width = v.width
  denote_eq : u.term.denote (.ofBindings m.bindings) = v.term.denote (.ofBindings m.bindings)
  mentions : ∀ d ∈ u.term.mentions,
    d ∈ v.term.mentions ∧ ∀ c ∈ replaced, d ≠ .constant c.1 c.2

namespace Remainder

variable {replaced : List (String × Nat)}

theorem start (hv : v.Canonical) : Remainder m v v [] :=
  ⟨hv, rfl, rfl, fun d hd => ⟨hd, by simp⟩⟩

theorem instantiate (h : Remainder m v u replaced) {c : String × Nat} {k : Nat}
    (hw : Width.Valid c.2) (hk : k < 2 ^ c.2) (hm : m.get? c.1 = some ⟨.lit k c.2⟩) :
    ∃ u', u.instantiate m c = .ok u' ∧ Remainder m v u' (replaced ++ [c]) := by
  have hlit : (⟨.lit k c.2⟩ : Value).Canonical := ⟨⟨hk, hw⟩, rfl⟩
  have hsame : (Term.lit k c.2).width = (Term.sym c.1 c.2).width := rfl
  obtain ⟨u', hu', hrepresents⟩ := substitute_sym h.canonical hlit hsame
  have hrep := hrepresents.replaces
  have hwidth := (replace_wellFormed hlit.wellFormed hsame u.term h.canonical.wellFormed).2
  -- under the model the symbol stands for its word
  have hdenote : (Term.lit k c.2).denote (.ofBindings m.bindings)
      = (Term.sym c.1 c.2).denote (.ofBindings m.bindings) := by
    simp [denote, Interpretation.ofBindings, Model.bindings, hm, toNat?, value?,
      Word.truncate_of_lt hk]
  have hinstantiate : u.instantiate m c = .ok u' := by
    rw [Value.instantiate, hm]
    exact hu'
  refine ⟨u', hinstantiate, hrepresents.canonical, ?_, ?_, fun d hd => ?_⟩
  · exact (hrep.width_eq.trans hwidth).trans h.width_eq
  · rw [hrep.denote_eq, denote_replace hlit.wellFormed hsame hdenote _ h.canonical.wellFormed,
      h.denote_eq]
  · rcases mentions_replace hlit.wellFormed hsame _ h.canonical.wellFormed d
      (hrep.mentions_subset hd) with hd | ⟨hd, hne⟩
    · simp [Term.mentions] at hd
    · obtain ⟨hmem, hout⟩ := h.mentions d hd
      exact ⟨hmem, List.forall_mem_append.2
        ⟨hout, List.forall_mem_singleton.2 (hne c.1 c.2 rfl)⟩⟩

theorem instantiate_all : ∀ (order : List (String × Nat)) {u : Value}
    {replaced : List (String × Nat)}, Remainder m v u replaced →
      (∀ c ∈ order, Width.Valid c.2 ∧ ∃ k, k < 2 ^ c.2 ∧ m.get? c.1 = some ⟨.lit k c.2⟩) →
        ∃ u', order.foldlM (Value.instantiate m) u = .ok u' ∧ Remainder m v u' (replaced ++ order)
  | [], u, replaced, h, _ => ⟨u, rfl, by rwa [List.append_nil]⟩
  | c :: order, u, replaced, h, hm => by
    obtain ⟨hw, k, hk, hget⟩ := hm c List.mem_cons_self
    obtain ⟨u₁, hu₁, h₁⟩ := h.instantiate hw hk hget
    obtain ⟨u', hu', h'⟩ := h₁.instantiate_all order fun c' hc' =>
      hm c' (List.mem_cons_of_mem _ hc')
    refine ⟨u', ?_, ?_⟩
    · rw [List.foldlM_cons, hu₁]
      exact hu'
    · rwa [List.append_assoc, List.singleton_append] at h'

/-- A literal that is left over is the value of what it is left of. -/
theorem evaluate_eq (h : Remainder m v u replaced) (hv : v.Canonical) (hu : u.isConcrete = true)
    (hbound : ∀ d ∈ v.term.mentions, d.Bound m.bindings) : m.evaluate v = .ok (some u) := by
  obtain ⟨k, hk⟩ := eq_lit_of_isLit hu
  have hwidth : u.term.width = v.term.width := h.width_eq
  have hdenote := h.denote_eq
  rw [hk, denote] at hdenote
  have heval : v.term.evaluate m.bindings = some k :=
    (evaluate_eq_some_iff (Interpretation.ofBindings_extends m.bindings)).2 ⟨hbound, hdenote.symm⟩
  exact (Model.evaluate_eq_some_iff hv.wellFormed).2
    ⟨hv.wellFormed, k, heval, by rw [← hwidth, ← hk]⟩

end Remainder

/-- Replacing all symbols of a value by their words in a model, in any order, ends in the concrete
value that the model evaluates it to. The model has one value to a name, so no name can be used at
two widths. -/
theorem instantiate_eq_evaluate {v : Value} {m : Model} {order : List (String × Nat)}
    (hv : v.Canonical) (hconstant : ∀ d ∈ v.term.declarations, d.isConstant = true)
    (hm : ∀ n w, .constant n w ∈ v.term.declarations →
      ∃ k, k < 2 ^ w ∧ m.get? n = some ⟨.lit k w⟩)
    (horder : ∀ n w, (n, w) ∈ order ↔ .constant n w ∈ v.term.declarations) :
    ∃ u, order.foldlM (instantiate m) v = .ok u ∧ u.isConcrete = true
      ∧ m.evaluate v = .ok (some u) := by
  have hmem : ∀ d, d ∈ v.term.declarations ↔ d ∈ v.term.mentions := fun d => List.mem_eraseDups
  obtain ⟨u, hu, hrest⟩ := (Remainder.start (m := m) hv).instantiate_all order fun c hc => by
    have hd := (horder c.1 c.2).1 hc
    exact ⟨valid_of_mem_mentions v.term hv.wellFormed ((hmem _).1 hd), hm c.1 c.2 hd⟩
  have hclosed : u.term.mentions = [] := by
    refine List.eq_nil_iff_forall_not_mem.2 fun d hd => ?_
    obtain ⟨hdv, hout⟩ := hrest.mentions d hd
    have hdecl := (hmem d).2 hdv
    obtain ⟨n, w, rfl⟩ := Declaration.eq_constant (hconstant d hdecl)
    exact hout (n, w) ((horder n w).2 hdecl) rfl
  have hbound : ∀ d ∈ v.term.mentions, d.Bound m.bindings := by
    intro d hd
    have hdecl := (hmem d).2 hd
    obtain ⟨n, w, rfl⟩ := Declaration.eq_constant (hconstant d hdecl)
    obtain ⟨k, -, hget⟩ := hm n w hdecl
    simp [Declaration.Bound, Model.bindings, hget, toNat?, value?]
  have hlit := hrest.canonical.isConcrete_of_closed hclosed
  exact ⟨u, hu, hlit, hrest.evaluate_eq hv hlit hbound⟩

/-- The second symbol goes first, and the other one stands at two places. -/
theorem instantiate_eq_evaluate_reversed :
    let v : Value := ⟨.concat [.sym "x" 8, .binary .add (.sym "x" 8) (.sym "y" 8)]⟩
    let m : Model := (Dictionary.empty.insert "x" ⟨.lit 0xF0 8⟩).insert "y" ⟨.lit 0x34 8⟩
    ∃ u, [("y", 8), ("x", 8)].foldlM (instantiate m) v = .ok u ∧ u.isConcrete = true
      ∧ m.evaluate v = .ok (some u) := by
  intro v m
  have hdecls : v.term.declarations = [.constant "x" 8, .constant "y" 8] := by rfl
  refine instantiate_eq_evaluate (by decide) ?_ ?_ ?_
  · simp [hdecls, Declaration.isConstant]
  · intro n w h
    simp only [hdecls, List.mem_cons, Declaration.constant.injEq, List.not_mem_nil,
      or_false] at h
    rcases h with ⟨rfl, rfl⟩ | ⟨rfl, rfl⟩
    · exact ⟨0xF0, by decide, by rfl⟩
    · exact ⟨0x34, by decide, by rfl⟩
  · simp [hdecls, or_comm]

end Value

end SymWord
