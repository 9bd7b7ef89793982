import SymWord.Constraints
import SymWord.Proofs.TrimmedText

/-!
# Reading constraints

A line is read by its first gap, a space or a tab. What is trimmed begins and ends with something
that can be seen, so if there is a gap, there is a name before it and an expression after it, and a
line can be refused only for having no gap at all (`ofChars_of_complete`).

Over all lines, reading goes on as long as no line is refused, and the entries of the lines are
added in their order (`addLines_of_complete`); it ends at the first line that is refused
(`addLines_of_nameOnly`). Since an entry only adds to the expressions of its own name, what is found
under a name are the expressions of the lines with this name (`get?_addAll`).
-/

namespace SymWord

namespace Constraints

variable {cs : List Char} {c : Char}

/-! ## One line -/

/-- Whether the character ends a name. -/
def isGap (c : Char) : Bool := c == ' ' || c == '\t'

/-- There is something on the line, but neither a space nor a tab in it. -/
def NameOnly (cs : List Char) : Prop :=
  Text.trim cs ≠ [] ∧ ' ' ∉ Text.trim cs ∧ '\t' ∉ Text.trim cs

instance : DecidablePred NameOnly := fun cs =>
  inferInstanceAs (Decidable (Text.trim cs ≠ [] ∧ ' ' ∉ Text.trim cs ∧ '\t' ∉ Text.trim cs))

/-- What stands before the first gap of a line. -/
def nameOf (cs : List Char) : List Char :=
  Text.trim ((Text.trim cs).takeWhile fun c => !isGap c)

/-- What stands after the first gap of a line, with spaces for tabs. -/
def expressionOf (cs : List Char) : List Char :=
  Text.trim (((Text.trim cs).dropWhile fun c => !isGap c).tail.map spaceForTab)

theorem spaceForTab_ne_iff : spaceForTab c ≠ ' ' ↔ isGap c = false := by
  unfold spaceForTab isGap
  split <;> simp_all

theorem map_spaceForTab (h : '\t' ∉ cs) : cs.map spaceForTab = cs := by
  refine (List.map_congr_left fun c hc => ?_).trans (List.map_id cs)
  have htab : c ≠ '\t' := by
    rintro rfl
    exact h hc
  rw [spaceForTab, if_neg htab, id]

theorem isBlank_of_isGap (h : isGap c = true) : Text.isBlank c = true := by
  simp only [isGap, Bool.or_eq_true, beq_iff_eq] at h
  rcases h with rfl | rfl <;> decide

theorem isBlank_spaceForTab (c : Char) : Text.isBlank (spaceForTab c) = Text.isBlank c := by
  unfold spaceForTab
  split
  · rename_i h
    rw [h]
    decide
  · rfl

/-- With spaces for tabs, a space is what was a gap. -/
theorem ne_space_comp : (fun c => decide (c ≠ ' ')) ∘ spaceForTab = fun c => !isGap c := by
  funext c
  rw [Function.comp, Bool.eq_iff_iff, decide_eq_true_iff, spaceForTab_ne_iff, Bool.not_eq_true']

theorem takeWhile_spaceForTab (cs : List Char) :
    (cs.map spaceForTab).takeWhile (· ≠ ' ') = cs.takeWhile fun c => !isGap c := by
  rw [List.takeWhile_map, ne_space_comp]
  exact map_spaceForTab fun htab => absurd (List.mem_takeWhile_imp htab) (by decide)

theorem dropWhile_spaceForTab (cs : List Char) :
    (cs.map spaceForTab).dropWhile (· ≠ ' ')
      = (cs.dropWhile fun c => !isGap c).map spaceForTab := by
  rw [List.dropWhile_map, ne_space_comp]

/-- After a gap in what is trimmed there is something to be seen. -/
theorem visible_after_gap {g : Char} {rest : List Char}
    (h : (Text.trim cs).dropWhile (fun c => !isGap c) = g :: rest) :
    Text.trim (rest.map spaceForTab) ≠ [] := by
  have hgap : isGap g = true := by
    have hnot := List.head?_dropWhile_not (fun c => !isGap c) (Text.trim cs)
    simpa [h] using hnot
  have hsplit := List.takeWhile_append_dropWhile (p := fun c => !isGap c) (l := Text.trim cs)
  rw [h] at hsplit
  have htrimmed := Text.trimmed_trim cs
  rw [← hsplit] at htrimmed
  obtain ⟨c, hc, hvisible⟩ := htrimmed.exists_visible (isBlank_of_isGap hgap)
  refine Text.trim_ne_nil_iff.2 ⟨spaceForTab c, List.mem_map_of_mem hc, ?_⟩
  rw [isBlank_spaceForTab, hvisible]

theorem dropWhile_eq_nil_iff (h : Text.trim cs ≠ []) :
    (Text.trim cs).dropWhile (fun c => !isGap c) = [] ↔ NameOnly cs := by
  rw [List.dropWhile_eq_nil_iff]
  constructor
  · intro hall
    refine ⟨h, fun hc => ?_, fun hc => ?_⟩
    · exact absurd (hall _ hc) (by decide)
    · exact absurd (hall _ hc) (by decide)
  · rintro ⟨-, hspace, htab⟩ c hc
    have hs : c ≠ ' ' := fun he => hspace (he ▸ hc)
    have ht : c ≠ '\t' := fun he => htab (he ▸ hc)
    simp [isGap, hs, ht]

theorem nameOf_ne_nil (h : Text.trim cs ≠ []) : nameOf cs ≠ [] := by
  obtain ⟨c, rest, hc⟩ := List.exists_cons_of_ne_nil h
  have hvisible := (Text.trimmed_trim cs).head c (by rw [hc]; rfl)
  have hgap : isGap c = false := by
    rw [← Bool.not_eq_true]
    intro hgap
    rw [isBlank_of_isGap hgap] at hvisible
    cases hvisible
  refine Text.trim_ne_nil_iff.2 ⟨c, ?_, hvisible⟩
  rw [hc, List.takeWhile_cons, hgap]
  exact List.mem_cons_self

theorem expressionOf_ne_nil (h : Text.trim cs ≠ []) (hgap : ¬ NameOnly cs) :
    expressionOf cs ≠ [] := by
  cases hdrop : (Text.trim cs).dropWhile (fun c => !isGap c) with
  | nil => exact absurd ((dropWhile_eq_nil_iff h).1 hdrop) hgap
  | cons g rest =>
    rw [expressionOf, hdrop]
    exact visible_after_gap hdrop

theorem ofChars_of_blank (h : Text.trim cs = []) : Line.ofChars cs = .blank := by
  simp [Line.ofChars, h]

/-- A line is refused only for having no gap. -/
theorem ofChars_of_nameOnly (h : NameOnly cs) : Line.ofChars cs = .incomplete (Text.trim cs) := by
  have hdrop := (dropWhile_eq_nil_iff h.1).2 h
  rw [Line.ofChars, dropWhile_spaceForTab, hdrop, map_spaceForTab h.2.2, if_neg h.1]
  rfl

theorem ofChars_of_complete (h : Text.trim cs ≠ []) (hgap : ¬ NameOnly cs) :
    Line.ofChars cs = .entry (nameOf cs) (expressionOf cs) := by
  have hne : (Text.trim cs).map spaceForTab ≠ [] := by simpa using h
  cases hdrop : (Text.trim cs).dropWhile (fun c => !isGap c) with
  | nil => exact absurd ((dropWhile_eq_nil_iff h).1 hdrop) hgap
  | cons g rest =>
    have hvisible := visible_after_gap hdrop
    rw [Line.ofChars, dropWhile_spaceForTab, takeWhile_spaceForTab, hdrop, if_neg hne]
    simp only [List.map_cons, if_neg hvisible]
    rw [nameOf, expressionOf, hdrop, List.tail_cons]

/-! ## All lines -/

/-- The name and the expression of a line that is not blank. -/
def entryOf? (cs : List Char) : Option (String × String) :=
  if Text.trim cs = [] then none
  else some (String.ofList (nameOf cs), String.ofList (expressionOf cs))

/-- The constraints with entries added one after another. -/
def addAll (c : Constraints) (es : List (String × String)) : Constraints :=
  es.foldl (fun c x => c.add x.1 x.2) c

theorem addLine_of_complete (c : Constraints) (n : Nat) (h : ¬ NameOnly cs) :
    c.addLine n cs = .ok (c.addAll (entryOf? cs).toList) := by
  unfold addLine entryOf?
  split_ifs with hblank
  · rw [ofChars_of_blank hblank]
    rfl
  · rw [ofChars_of_complete hblank h]
    rfl

theorem addLine_of_nameOnly (c : Constraints) (n : Nat) (h : NameOnly cs) :
    c.addLine n cs = .error (.noConstraint n (String.ofList (Text.trim cs))) := by
  rw [addLine, ofChars_of_nameOnly h]

theorem addLines_of_complete : ∀ (ls : List (List Char)) (c : Constraints) (n : Nat),
    (∀ l ∈ ls, ¬ NameOnly l) → c.addLines n (ls.map some) = .ok (c.addAll (ls.filterMap entryOf?))
  | [], _, _, _ => rfl
  | l :: ls, c, n, h => by
    rw [List.map_cons, addLines, addLine_of_complete c n (h l List.mem_cons_self)]
    show (c.addAll (entryOf? l).toList).addLines (n + 1) (ls.map some) = _
    rw [addLines_of_complete ls _ _ fun k hk => h k (List.mem_cons_of_mem _ hk), addAll, addAll,
      addAll, ← List.foldl_append, List.filterMap_cons]
    cases entryOf? l <;> rfl

theorem addLines_of_nameOnly {l : List Char} (hl : NameOnly l) (after : List (List Char)) :
    ∀ (before : List (List Char)) (c : Constraints) (n : Nat), (∀ k ∈ before, ¬ NameOnly k) →
      c.addLines n ((before ++ l :: after).map some)
        = .error (.noConstraint (n + before.length) (String.ofList (Text.trim l)))
  | [], c, n, _ => by
    rw [List.nil_append, List.map_cons, addLines, addLine_of_nameOnly c n hl]
    rfl
  | k :: before, c, n, h => by
    rw [List.cons_append, List.map_cons, addLines,
      addLine_of_complete c n (h k List.mem_cons_self)]
    show (c.addAll (entryOf? k).toList).addLines (n + 1) ((before ++ l :: after).map some) = _
    rw [addLines_of_nameOnly hl after before _ _ fun k' hk => h k' (List.mem_cons_of_mem _ hk),
      List.length_cons, Nat.add_assoc, Nat.add_comm 1]

/-- An empty line at the end makes no difference. -/
theorem addLines_concat_nil : ∀ (ls : List (List Char)) (c : Constraints) (n : Nat),
    c.addLines n ((ls ++ [[]]).map some) = c.addLines n (ls.map some)
  | [], _, _ => rfl
  | l :: ls, c, n => by
    rw [List.cons_append, List.map_cons, addLines, List.map_cons, addLines]
    cases c.addLine n l with
    | error _ => rfl
    | ok c' => exact addLines_concat_nil ls c' (n + 1)

/-- The lines of a text, split at the newlines. -/
def linesOf (s : String) : List (List Char) := s.toList.splitOn '\n'

theorem ofText_eq (s : String) :
    ofText s = addLines .empty 1 ((linesOf s).map some) := by
  rcases Text.splitOn_cases '\n' s.toList with h | h <;> rw [linesOf, h, ofText]
  rw [addLines_concat_nil]

/-! ## What is found -/

/-- The expressions that entries give for a name. -/
def given (f : String) (es : List (String × String)) : List String :=
  (es.filter fun x => x.1 = f).map Prod.snd

theorem given_cons (f f' e : String) (es : List (String × String)) :
    given f ((f', e) :: es) = if f' = f then e :: given f es else given f es := by
  unfold given
  rw [List.filter_cons]
  split_ifs <;> simp_all

theorem get?_add (c : Constraints) (f f' e : String) : (c.add f' e).get? f
    = if f' = f then some ((c.get? f).getD [] ++ [e]) else c.get? f := by
  unfold add
  split_ifs with hf
  · rw [hf, Dictionary.get?_upsert_self]
  · exact Dictionary.get?_upsert_ne _ _ (Ne.symm hf)

theorem get?_addAll (f : String) : ∀ (es : List (String × String)) (c : Constraints),
    (c.addAll es).get? f
      = if given f es = [] then c.get? f else some ((c.get? f).getD [] ++ given f es)
  | [], c => by simp [addAll, given]
  | (f', e) :: es, c => by
    have hstep : c.addAll ((f', e) :: es) = (c.add f' e).addAll es := rfl
    rw [hstep, get?_addAll f es, get?_add]
    by_cases hf : f' = f
    · rw [given_cons, if_pos hf, if_pos hf]
      by_cases hnil : given f es = [] <;> simp [hnil]
    · rw [given_cons, if_neg hf, if_neg hf]

/-- The expressions of the lines with a name. -/
def expressionsOf (f : String) (ls : List (List Char)) : List String :=
  (ls.filter fun l => Text.trim l ≠ [] ∧ String.ofList (nameOf l) = f).map
    fun l => String.ofList (expressionOf l)

theorem given_filterMap (f : String) (ls : List (List Char)) :
    given f (ls.filterMap entryOf?) = expressionsOf f ls := by
  induction ls with
  | nil => rfl
  | cons l ls ih =>
    by_cases hblank : Text.trim l = []
    · have hentry : entryOf? l = none := if_pos hblank
      rw [List.filterMap_cons_none hentry, ih, expressionsOf, expressionsOf,
        List.filter_cons_of_neg (by simp [hblank])]
    · have hentry : entryOf? l = some _ := if_neg hblank
      rw [List.filterMap_cons_some hentry, given_cons, ih, expressionsOf, expressionsOf]
      split_ifs with hf
      · rw [List.filter_cons_of_pos (by simp [hblank, hf]), List.map_cons]
      · rw [List.filter_cons_of_neg (by simp [hf])]

/-! ## Texts -/

theorem exists_first {ls : List (List Char)} (h : ∃ l ∈ ls, NameOnly l) :
    ∃ before l after, ls = before ++ l :: after ∧ (∀ k ∈ before, ¬ NameOnly k) ∧ NameOnly l := by
  obtain ⟨k, hk, hname⟩ := h
  have hfound : (ls.find? fun l => decide (NameOnly l)).isSome :=
    List.find?_isSome.2 ⟨k, hk, decide_eq_true hname⟩
  obtain ⟨l, hfind⟩ := Option.isSome_iff_exists.1 hfound
  obtain ⟨hl, before, after, rfl, hbefore⟩ := List.find?_eq_some_iff_append.1 hfind
  exact ⟨before, l, after, rfl, fun k hk => by simpa using hbefore k hk, of_decide_eq_true hl⟩

theorem ofText_eq_error_iff {s : String} {e : Error} : ofText s = .error e ↔
    ∃ before l after, linesOf s = before ++ l :: after
      ∧ (∀ k ∈ before, ¬ NameOnly k) ∧ NameOnly l
      ∧ e = .noConstraint (before.length + 1) (String.ofList (Text.trim l)) := by
  rw [ofText_eq]
  constructor
  · intro he
    have hname : ∃ l ∈ linesOf s, NameOnly l := by
      by_contra hnone
      rw [addLines_of_complete _ _ _ fun l hl hname => hnone ⟨l, hl, hname⟩] at he
      cases he
    obtain ⟨before, l, after, hls, hbefore, hl⟩ := exists_first hname
    rw [hls, addLines_of_nameOnly hl after before _ _ hbefore, Except.error.injEq] at he
    exact ⟨before, l, after, hls, hbefore, hl, by rw [← he, Nat.add_comm]⟩
  · rintro ⟨before, l, after, hls, hbefore, hl, rfl⟩
    rw [hls, addLines_of_nameOnly hl after before _ _ hbefore, Nat.add_comm]

theorem ofText_eq_ok_iff {s : String} {c : Constraints} : ofText s = .ok c ↔
    (∀ l ∈ linesOf s, ¬ NameOnly l)
      ∧ c = addAll .empty ((linesOf s).filterMap entryOf?) := by
  constructor
  · intro hc
    have hnone : ∀ l ∈ linesOf s, ¬ NameOnly l := by
      intro l hl hname
      obtain ⟨before, k, after, hfirst⟩ := exists_first ⟨l, hl, hname⟩
      rw [ofText_eq_error_iff.2 ⟨before, k, after, hfirst.1, hfirst.2.1, hfirst.2.2, rfl⟩] at hc
      cases hc
    rw [ofText_eq, addLines_of_complete _ _ _ hnone, Except.ok.injEq] at hc
    exact ⟨hnone, hc.symm⟩
  · rintro ⟨hnone, rfl⟩
    rw [ofText_eq, addLines_of_complete _ _ _ hnone]

theorem get?_ofText {s : String} {c : Constraints} (hc : ofText s = .ok c) (f : String) :
    c.get? f = if expressionsOf f (linesOf s) = [] then none
      else some (expressionsOf f (linesOf s)) := by
  rw [(ofText_eq_ok_iff.1 hc).2, get?_addAll, given_filterMap, Dictionary.get?_empty]
  rfl

theorem expressionsOf_eq_nil_iff {f : String} {ls : List (List Char)} : expressionsOf f ls = [] ↔
    ¬ ∃ l ∈ ls, Text.trim l ≠ [] ∧ String.ofList (nameOf l) = f := by
  simp [expressionsOf]

/-- What is stored under a name comes from the lines of the text. -/
theorem exists_line_of_mem {s : String} {c : Constraints} (hc : ofText s = .ok c)
    {x : String × List String} (hx : x ∈ c.entries) : x.2 ≠ [] ∧ ∀ e ∈ x.2,
      ∃ l ∈ linesOf s, Text.trim l ≠ [] ∧ ¬ NameOnly l
        ∧ String.ofList (nameOf l) = x.1 ∧ String.ofList (expressionOf l) = e := by
  have hget := get?_ofText hc x.1
  rw [Dictionary.get?_eq_some_iff.2 hx] at hget
  split_ifs at hget with hnil
  rw [Option.some.injEq] at hget
  refine ⟨hget ▸ hnil, fun e he => ?_⟩
  simp only [hget, expressionsOf, List.mem_map, List.mem_filter, decide_eq_true_eq] at he
  obtain ⟨l, ⟨hl, hne, hname⟩, rfl⟩ := he
  exact ⟨l, hl, hne, (ofText_eq_ok_iff.1 hc).1 l hl, hname, rfl⟩

theorem ofList_ne_empty {cs : List Char} (h : cs ≠ []) : String.ofList cs ≠ "" := by
  intro he
  have := congrArg String.toList he
  rw [String.toList_ofList] at this
  exact h this

/-- A text is refused exactly if some line has a name and no gap, and the error tells the first one.
A gap is never the end of a line, so nothing else is refused. Otherwise each name has the
expressions of the lines that begin with it, in their order, and no name and no expression is
empty. -/
theorem ofText_exact (s : String) :
    ((∃ e, ofText s = .error e) ↔ ∃ l ∈ linesOf s, NameOnly l)
    ∧ (∀ e, ofText s = .error e ↔ ∃ before l after, linesOf s = before ++ l :: after
      ∧ (∀ k ∈ before, ¬ NameOnly k) ∧ NameOnly l
      ∧ e = .noConstraint (before.length + 1) (String.ofList (Text.trim l)))
    ∧ (∀ (l : List Char) (g : Char) (rest : List Char),
      ((Text.trim l).map spaceForTab).dropWhile (· ≠ ' ') = g :: rest → Text.trim rest ≠ [])
    ∧ ∀ c, ofText s = .ok c →
      (∀ f, c.get? f = if expressionsOf f (linesOf s) = [] then none
        else some (expressionsOf f (linesOf s)))
      ∧ (∀ f, c.get? f = none ↔ ¬ ∃ l ∈ linesOf s, Text.trim l ≠ [] ∧ String.ofList (nameOf l) = f)
      ∧ ∀ x ∈ c.entries, x.1 ≠ "" ∧ x.2 ≠ [] ∧ ∀ e ∈ x.2, e ≠ "" := by
  refine ⟨⟨?_, ?_⟩, fun e => ofText_eq_error_iff, fun l g rest h => ?_, fun c hc => ⟨?_, ?_, ?_⟩⟩
  · rintro ⟨e, he⟩
    obtain ⟨before, l, after, hls, -, hl, -⟩ := ofText_eq_error_iff.1 he
    exact ⟨l, by simp [hls], hl⟩
  · intro hname
    obtain ⟨before, l, after, hls, hbefore, hl⟩ := exists_first hname
    exact ⟨_, ofText_eq_error_iff.2 ⟨before, l, after, hls, hbefore, hl, rfl⟩⟩
  · rw [dropWhile_spaceForTab, List.map_eq_cons_iff] at h
    obtain ⟨g', rest', hdrop, -, rfl⟩ := h
    exact visible_after_gap hdrop
  · exact get?_ofText hc
  · intro f
    rw [get?_ofText hc, ← expressionsOf_eq_nil_iff]
    simp
  · intro x hx
    obtain ⟨hne, hlines⟩ := exists_line_of_mem hc hx
    refine ⟨?_, hne, fun e he => ?_⟩
    · obtain ⟨e, he⟩ := List.exists_mem_of_ne_nil _ hne
      obtain ⟨l, -, hblank, -, hname, -⟩ := hlines e he
      rw [← hname]
      exact ofList_ne_empty (nameOf_ne_nil hblank)
    · obtain ⟨l, -, hblank, hgap, -, rfl⟩ := hlines e he
      exact ofList_ne_empty (expressionOf_ne_nil hblank hgap)

/-- A name on two lines with blank lines between them, and a name alone on the third line. -/
theorem ofText_exact_lines :
    (∃ c, ofText "foo\tx > 3\n \t\r\n  foo  y < 2\t" = .ok c
      ∧ c.get? "foo" = some ["x > 3", "y < 2"] ∧ c.get? "bar" = none)
    ∧ ofText "ok a == b\n\nlonely\r\n" = .error (.noConstraint 3 "lonely") := by
  constructor
  · have hok : ∃ c, ofText "foo\tx > 3\n \t\r\n  foo  y < 2\t" = .ok c := ⟨_, rfl⟩
    obtain ⟨c, hc⟩ := hok
    obtain ⟨hget, -⟩ := (ofText_exact _).2.2.2 c hc
    exact ⟨c, hc, (hget "foo").trans rfl, (hget "bar").trans rfl⟩
  · exact ((ofText_exact _).2.1 _).2 ⟨["ok a == b".toList, []], "lonely\r".toList, [[]], rfl,
      by decide, by decide, rfl⟩

end Constraints

end SymWord
