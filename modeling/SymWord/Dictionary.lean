/-!
# Dictionaries

Finite maps from names, listed in the order of the names by code points. Two dictionaries with the
same entries are equal, since the order is part of the type.
-/

namespace SymWord

structure Dictionary (α : Type) where
  entries : List (String × α)
  ordered : entries.Pairwise (fun x y => x.1 < y.1)

namespace Dictionary

variable {α : Type}

def empty : Dictionary α := ⟨[], .nil⟩

instance : Inhabited (Dictionary α) := ⟨empty⟩

@[ext] theorem ext {d d' : Dictionary α} (h : d.entries = d'.entries) : d = d' := by
  cases d
  cases d'
  cases h
  rfl

instance [DecidableEq α] : DecidableEq (Dictionary α) := fun _ _ =>
  decidable_of_iff _ ⟨ext, fun h => h ▸ rfl⟩

/-- The entries with the one for `k` made from what stood there before. -/
def upsertEntries (k : String) (f : Option α → α) : List (String × α) → List (String × α)
  | [] => [(k, f none)]
  | (k', a) :: rest =>
    if k = k' then (k, f (some a)) :: rest
    else if k < k' then (k, f none) :: (k', a) :: rest
    else (k', a) :: upsertEntries k f rest

theorem mem_upsertEntries {k : String} {f : Option α → α} {x : String × α} :
    ∀ {l : List (String × α)}, x ∈ upsertEntries k f l → x.1 = k ∨ x ∈ l
  | [], h => by
    simp only [upsertEntries, List.mem_singleton] at h
    simp [h]
  | (k', a) :: rest, h => by
    simp only [upsertEntries] at h
    split at h
    · rcases List.mem_cons.1 h with rfl | h
      · exact .inl rfl
      · exact .inr (List.mem_cons_of_mem _ h)
    · split at h
      · rcases List.mem_cons.1 h with rfl | h
        · exact .inl rfl
        · exact .inr h
      · rcases List.mem_cons.1 h with rfl | h
        · exact .inr List.mem_cons_self
        · exact (mem_upsertEntries h).imp_right (List.mem_cons_of_mem _)

theorem pairwise_upsertEntries {k : String} {f : Option α → α} :
    ∀ {l : List (String × α)}, l.Pairwise (fun x y => x.1 < y.1) →
      (upsertEntries k f l).Pairwise (fun x y => x.1 < y.1)
  | [], _ => by simp [upsertEntries]
  | (k', a) :: rest, h => by
    obtain ⟨hhead, hrest⟩ := List.pairwise_cons.1 h
    simp only [upsertEntries]
    split
    · rename_i hk
      exact List.pairwise_cons.2 ⟨fun y hy => hk ▸ hhead y hy, hrest⟩
    · split
      · rename_i hlt
        refine List.pairwise_cons.2 ⟨fun y hy => ?_, h⟩
        rcases List.mem_cons.1 hy with rfl | hy
        · exact hlt
        · exact String.lt_trans hlt (hhead y hy)
      · rename_i hne hlt
        refine List.pairwise_cons.2 ⟨fun y hy => ?_, pairwise_upsertEntries hrest⟩
        rcases mem_upsertEntries hy with hy | hy
        · refine hy ▸ Decidable.by_contra fun hge => hne ?_
          exact String.le_antisymm (String.not_lt.1 hge) (String.not_lt.1 hlt)
        · exact hhead y hy

/-- The dictionary with the entry for `k` made from what stood there before. -/
def upsert (d : Dictionary α) (k : String) (f : Option α → α) : Dictionary α :=
  ⟨upsertEntries k f d.entries, pairwise_upsertEntries d.ordered⟩

/-- An entry that is there already is replaced. -/
def insert (d : Dictionary α) (k : String) (a : α) : Dictionary α := d.upsert k fun _ => a

/-- The first entry for `k`. -/
def lookup (k : String) : List (String × α) → Option α
  | [] => none
  | (k', a) :: rest => if k = k' then some a else lookup k rest

def get? (d : Dictionary α) (k : String) : Option α := lookup k d.entries

def size (d : Dictionary α) : Nat := d.entries.length

theorem lookup_eq_none {k : String} :
    ∀ {l : List (String × α)}, (∀ x ∈ l, k < x.1) → lookup k l = none
  | [], _ => rfl
  | (k', a) :: rest, h => by
    have hlt := h _ List.mem_cons_self
    have hne : k ≠ k' := fun he => String.lt_irrefl k' (he ▸ hlt)
    rw [lookup, if_neg hne]
    exact lookup_eq_none fun x hx => h x (List.mem_cons_of_mem _ hx)

theorem lookup_upsertEntries_self (k : String) (f : Option α → α) :
    ∀ {l : List (String × α)}, l.Pairwise (fun x y => x.1 < y.1) →
      lookup k (upsertEntries k f l) = some (f (lookup k l))
  | [], _ => by simp [upsertEntries, lookup]
  | (k', a) :: rest, h => by
    obtain ⟨hhead, hrest⟩ := List.pairwise_cons.1 h
    simp only [upsertEntries]
    split
    · simp [lookup, *]
    · split
      · rename_i hk hlt
        have hnone := lookup_eq_none fun x hx => String.lt_trans hlt (hhead x hx)
        simp [lookup, hk, hnone]
      · rename_i hk _
        simp [lookup, hk, lookup_upsertEntries_self k f hrest]

theorem lookup_upsertEntries_ne {k k₁ : String} (f : Option α → α) (hne : k₁ ≠ k) :
    ∀ l : List (String × α), lookup k₁ (upsertEntries k f l) = lookup k₁ l
  | [] => by simp [upsertEntries, lookup, hne]
  | (k', a) :: rest => by
    simp only [upsertEntries]
    split
    · rename_i hk
      simp [lookup, hne, ← hk]
    · split
      · simp [lookup, hne]
      · simp [lookup, lookup_upsertEntries_ne f hne rest]

@[simp] theorem get?_upsert_self (d : Dictionary α) (k : String) (f : Option α → α) :
    (d.upsert k f).get? k = some (f (d.get? k)) :=
  lookup_upsertEntries_self k f d.ordered

theorem get?_upsert_ne (d : Dictionary α) {k k₁ : String} (f : Option α → α) (h : k₁ ≠ k) :
    (d.upsert k f).get? k₁ = d.get? k₁ :=
  lookup_upsertEntries_ne f h d.entries

theorem eq_of_lookup_eq : ∀ {l l' : List (String × α)}, l.Pairwise (fun x y => x.1 < y.1) →
    l'.Pairwise (fun x y => x.1 < y.1) → (∀ n, lookup n l = lookup n l') → l = l'
  | [], [], _, _, _ => rfl
  | [], (k, a) :: l', _, _, h => by simpa [lookup] using h k
  | (k, a) :: l, [], _, _, h => by simpa [lookup] using h k
  | (k, a) :: l, (k', a') :: l', hl, hl', h => by
    obtain ⟨hhead, hrest⟩ := List.pairwise_cons.1 hl
    obtain ⟨hhead', hrest'⟩ := List.pairwise_cons.1 hl'
    -- A smaller first name would be missing on the other side.
    have hk : k = k' := by
      refine String.le_antisymm (String.not_lt.1 fun hlt => ?_) (String.not_lt.1 fun hlt => ?_)
      · have hnone := lookup_eq_none (l := (k, a) :: l) fun x hx => by
          rcases List.mem_cons.1 hx with rfl | hx
          · exact hlt
          · exact String.lt_trans hlt (hhead x hx)
        have hfound := h k'
        rw [hnone] at hfound
        simp [lookup] at hfound
      · have hnone := lookup_eq_none (l := (k', a') :: l') fun x hx => by
          rcases List.mem_cons.1 hx with rfl | hx
          · exact hlt
          · exact String.lt_trans hlt (hhead' x hx)
        have hfound := h k
        rw [hnone] at hfound
        simp [lookup] at hfound
    subst hk
    have ha : a = a' := by simpa [lookup] using h k
    have htail : ∀ n, lookup n l = lookup n l' := by
      intro n
      by_cases hn : n = k
      · rw [hn, lookup_eq_none hhead, lookup_eq_none hhead']
      · simpa [lookup, hn] using h n
    rw [ha, eq_of_lookup_eq hrest hrest' htail]

theorem eq_of_get?_eq {d d' : Dictionary α} (h : ∀ n, d.get? n = d'.get? n) : d = d' :=
  ext (eq_of_lookup_eq d.ordered d'.ordered h)

@[simp] theorem get?_empty (n : String) : (empty : Dictionary α).get? n = none := rfl

theorem mem_of_lookup {k : String} {a : α} :
    ∀ {l : List (String × α)}, lookup k l = some a → (k, a) ∈ l
  | [], h => by cases h
  | (k', a') :: rest, h => by
    rw [lookup] at h
    split at h
    · rename_i hk
      rw [hk, Option.some.inj h]
      exact List.mem_cons_self
    · exact List.mem_cons_of_mem _ (mem_of_lookup h)

theorem lookup_of_mem {x : String × α} :
    ∀ {l : List (String × α)}, l.Pairwise (fun x y => x.1 < y.1) → x ∈ l → lookup x.1 l = some x.2
  | (k', a') :: rest, h, hx => by
    obtain ⟨hhead, hrest⟩ := List.pairwise_cons.1 h
    rcases List.mem_cons.1 hx with rfl | hx
    · rw [lookup, if_pos rfl]
    · have hne : x.1 ≠ k' := fun he => String.lt_irrefl k' (he ▸ hhead x hx)
      rw [lookup, if_neg hne, lookup_of_mem hrest hx]

theorem get?_eq_some_iff {d : Dictionary α} {k : String} {a : α} :
    d.get? k = some a ↔ (k, a) ∈ d.entries :=
  ⟨mem_of_lookup, lookup_of_mem d.ordered⟩

end Dictionary

end SymWord
