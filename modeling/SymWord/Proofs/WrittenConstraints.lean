import SymWord.Proofs.ConstraintLines

/-!
# Writing constraints back

A set of constraints is written with a line for each expression: the name, a space, the expression.
What reading stores can be written so (`storable_of_line`): a name is visible at both ends and has
no gap in it, and an expression is visible at both ends and has no tab. So the line is read at the
same place (`entryOf?_lineOf`), and since names come in their order and the expressions of a name
one after another, adding the entries again makes the same set (`addAll_pairs`).
-/

namespace SymWord

namespace Constraints

/-- Each expression with its name, in the order of the names. -/
def pairs (c : Constraints) : List (String × String) :=
  c.entries.flatMap fun x => x.2.map fun e => (x.1, e)

/-- The text with a line for each expression. -/
def written (c : Constraints) : String :=
  String.join (c.pairs.map fun x => x.1 ++ " " ++ x.2 ++ "\n")

/-! ## What can be stored -/

/-- A name and an expression that can be written on a line and read again. -/
structure Storable (f e : List Char) : Prop where
  name_ne_nil : f ≠ []
  name_trimmed : Text.Trimmed f
  name_gap : ∀ c ∈ f, isGap c = false
  name_line : '\n' ∉ f
  expression_ne_nil : e ≠ []
  expression_trimmed : Text.Trimmed e
  expression_tab : '\t' ∉ e
  expression_line : '\n' ∉ e

theorem spaceForTab_ne_tab (c : Char) : spaceForTab c ≠ '\t' := by
  unfold spaceForTab
  split_ifs with h
  · decide
  · exact h

theorem eq_newline_of_spaceForTab {c : Char} (h : spaceForTab c = '\n') : c = '\n' := by
  unfold spaceForTab at h
  split_ifs at h
  · exact absurd h (by decide)
  · exact h

theorem storable_of_line {l : List Char} (hline : '\n' ∉ l) (hblank : Text.trim l ≠ [])
    (hgap : ¬ NameOnly l) : Storable (nameOf l) (expressionOf l) where
  name_ne_nil := nameOf_ne_nil hblank
  name_trimmed := Text.trimmed_trim _
  name_gap c hc := by
    have htake := List.mem_takeWhile_imp (Text.mem_of_mem_trim hc)
    rwa [Bool.not_eq_true'] at htake
  name_line hc := by
    have htake := List.takeWhile_subset _ (Text.mem_of_mem_trim hc)
    exact hline (Text.mem_of_mem_trim htake)
  expression_ne_nil := expressionOf_ne_nil hblank hgap
  expression_trimmed := Text.trimmed_trim _
  expression_tab hc := by
    obtain ⟨c, -, htab⟩ := List.mem_map.1 (Text.mem_of_mem_trim hc)
    exact spaceForTab_ne_tab c htab
  expression_line hc := by
    obtain ⟨c, hc, hnewline⟩ := List.mem_map.1 (Text.mem_of_mem_trim hc)
    rw [eq_newline_of_spaceForTab hnewline] at hc
    have hdrop := (List.dropWhile_suffix _).subset (List.mem_of_mem_tail hc)
    exact hline (Text.mem_of_mem_trim hdrop)

/-! ## Reading a written line -/

/-- The line without its end. -/
def lineOf (f e : List Char) : List Char := f ++ ' ' :: e

namespace Storable

variable {f e : List Char}

theorem trim_lineOf (h : Storable f e) : Text.trim (lineOf f e) = lineOf f e := by
  have htrimmed := h.name_trimmed.append h.name_ne_nil [' '] h.expression_trimmed
    h.expression_ne_nil
  rw [List.append_assoc, List.singleton_append] at htrimmed
  exact htrimmed.trim_eq

theorem not_isGap (h : Storable f e) : ∀ c ∈ f, (!isGap c) = true := by
  intro c hc
  rw [h.name_gap c hc]
  rfl

theorem nameOf_lineOf (h : Storable f e) : nameOf (lineOf f e) = f := by
  rw [nameOf, h.trim_lineOf, lineOf, List.takeWhile_append_of_pos h.not_isGap,
    List.takeWhile_cons_of_neg (by decide), List.append_nil, h.name_trimmed.trim_eq]

theorem expressionOf_lineOf (h : Storable f e) : expressionOf (lineOf f e) = e := by
  rw [expressionOf, h.trim_lineOf, lineOf, List.dropWhile_append_of_pos h.not_isGap,
    List.dropWhile_cons_of_neg (by decide), List.tail_cons, map_spaceForTab h.expression_tab,
    h.expression_trimmed.trim_eq]

theorem not_nameOnly_lineOf (h : Storable f e) : ¬ NameOnly (lineOf f e) := by
  rintro ⟨-, hspace, -⟩
  rw [h.trim_lineOf] at hspace
  exact hspace (by simp [lineOf])

theorem entryOf?_lineOf (h : Storable f e) :
    entryOf? (lineOf f e) = some (String.ofList f, String.ofList e) := by
  have hne : Text.trim (lineOf f e) ≠ [] := by
    rw [h.trim_lineOf]
    simp [lineOf]
  rw [entryOf?, if_neg hne, h.nameOf_lineOf, h.expressionOf_lineOf]

theorem newline_notMem_lineOf (h : Storable f e) : '\n' ∉ lineOf f e := by
  simp [lineOf, h.name_line, h.expression_line]

end Storable

/-- The line of an entry. -/
def lineOfPair (x : String × String) : List Char := lineOf x.1.toList x.2.toList

theorem linesOf_join : ∀ {ps : List (String × String)},
    (∀ x ∈ ps, Storable x.1.toList x.2.toList) →
      linesOf (String.join (ps.map fun x => x.1 ++ " " ++ x.2 ++ "\n"))
        = ps.map lineOfPair ++ [[]]
  | [], _ => rfl
  | x :: ps, h => by
    have hnew : '\n' ∉ lineOfPair x := (h x List.mem_cons_self).newline_notMem_lineOf
    have hline : (x.1 ++ " " ++ x.2 ++ "\n").toList = lineOfPair x ++ ['\n'] := by
      simp [lineOfPair, lineOf]
    have ih := linesOf_join fun y hy => h y (List.mem_cons_of_mem _ hy)
    rw [linesOf, String.toList_join] at ih ⊢
    rw [List.map_cons, List.flatMap_cons, hline, List.append_assoc, List.singleton_append,
      List.splitOn_append_cons_self_of_not_mem hnew, ih, List.map_cons, List.cons_append]

theorem filterMap_lineOfPair : ∀ {ps : List (String × String)},
    (∀ x ∈ ps, Storable x.1.toList x.2.toList) → (ps.map lineOfPair).filterMap entryOf? = ps
  | [], _ => rfl
  | x :: ps, h => by
    have hentry : entryOf? (lineOfPair x) = some x := by
      rw [lineOfPair, (h x List.mem_cons_self).entryOf?_lineOf, String.ofList_toList,
        String.ofList_toList]
    rw [List.map_cons, List.filterMap_cons_some hentry,
      filterMap_lineOfPair fun y hy => h y (List.mem_cons_of_mem _ hy)]

/-! ## The same set -/

variable {c : Constraints}

theorem given_append (f : String) (ps qs : List (String × String)) :
    given f (ps ++ qs) = given f ps ++ given f qs := by
  simp [given]

theorem given_map (f f' : String) (es : List String) :
    given f (es.map fun e => (f', e)) = if f' = f then es else [] := by
  induction es with
  | nil => simp [given]
  | cons e es ih =>
    rw [List.map_cons, given_cons, ih]
    split_ifs <;> rfl

/-- A name has one entry, so its expressions are those of this entry. -/
theorem given_flatMap (f : String) : ∀ {l : List (String × List String)},
    l.Pairwise (fun x y => x.1 < y.1) →
      given f (l.flatMap fun x => x.2.map fun e => (x.1, e)) = (Dictionary.lookup f l).getD []
  | [], _ => rfl
  | (f', es) :: l, h => by
    obtain ⟨hhead, hrest⟩ := List.pairwise_cons.1 h
    rw [List.flatMap_cons, given_append, given_map, given_flatMap f hrest, Dictionary.lookup]
    by_cases hf : f' = f
    · subst hf
      simp [Dictionary.lookup_eq_none hhead]
    · simp [hf, Ne.symm hf]

theorem addAll_pairs (h : ∀ x ∈ c.entries, x.2 ≠ []) : addAll .empty c.pairs = c := by
  refine Dictionary.eq_of_get?_eq fun f => ?_
  have hgiven : given f c.pairs = (c.get? f).getD [] := given_flatMap f c.ordered
  rw [get?_addAll, hgiven, Dictionary.get?_empty]
  cases hget : c.get? f with
  | none => rfl
  | some es =>
    have hne : es ≠ [] := h _ (Dictionary.get?_eq_some_iff.1 hget)
    simp [hne]

/-- A set in which every name has an expression and all can be stored is read from its text. -/
theorem ofText_written_of_storable (hne : ∀ x ∈ c.entries, x.2 ≠ [])
    (h : ∀ x ∈ c.entries, ∀ e ∈ x.2, Storable x.1.toList e.toList) :
    ofText c.written = .ok c := by
  have hpairs : ∀ x ∈ c.pairs, Storable x.1.toList x.2.toList := by
    intro x hx
    simp only [pairs, List.mem_flatMap, List.mem_map] at hx
    obtain ⟨y, hy, e, he, rfl⟩ := hx
    exact h y hy e he
  rw [ofText_eq_ok_iff, written, linesOf_join hpairs]
  constructor
  · intro l hl
    rcases List.mem_append.1 hl with hl | hl
    · obtain ⟨x, hx, rfl⟩ := List.mem_map.1 hl
      exact (hpairs x hx).not_nameOnly_lineOf
    · rw [List.mem_singleton.1 hl]
      decide
  · have hend : [[]].filterMap entryOf? = [] := rfl
    rw [List.filterMap_append, filterMap_lineOfPair hpairs, hend, List.append_nil,
      addAll_pairs hne]

theorem storable_of_ofText {s : String} (h : ofText s = .ok c) {x : String × List String}
    (hx : x ∈ c.entries) {e : String} (he : e ∈ x.2) : Storable x.1.toList e.toList := by
  obtain ⟨l, hl, hblank, hgap, hname, rfl⟩ := (exists_line_of_mem h hx).2 e he
  rw [← hname, String.toList_ofList, String.toList_ofList]
  exact storable_of_line (Text.notMem_of_mem_splitOn hl) hblank hgap

/-- What was read from a text and is written line by line is read from the new text again. -/
theorem ofText_written {s : String} (h : ofText s = .ok c) : ofText c.written = .ok c :=
  ofText_written_of_storable (fun _ hx => (exists_line_of_mem h hx).1)
    fun _ hx _ he => storable_of_ofText h hx he

/-- One name on two lines with another one between them, and white space of all kinds. -/
theorem ofText_written_regrouped :
    let c : Constraints := ((add .empty "b" "x y").add "a" "z").add "b" "w"
    ofText "b x\ty\n\u00a0a\u00a0\t z\r\n\nb  w\u2003" = .ok c
      ∧ c.written = "a z\nb x y\nb w\n" ∧ ofText c.written = .ok c := by
  intro c
  have hc : ofText "b x\ty\n\u00a0a\u00a0\t z\r\n\nb  w\u2003" = .ok c := by rfl
  exact ⟨hc, by rfl, ofText_written hc⟩

end Constraints

end SymWord
