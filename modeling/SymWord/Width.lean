/-!
# Widths

A width, and likewise a bit position, is a count below `limit`. Terms are built with plain sums and
differences of counts. Where one of them leaves the range, what is being done fails; which ones are
formed is told in `SymWord.Term.Counts`. Only the width of an extension stays at the greatest width
when it would pass it.
-/

namespace SymWord

namespace Width

/-- One more than the greatest width. -/
def limit : Nat := 4294967296

/-- The width after `bits` more bits, which stays at the greatest width when it would pass it. -/
def extend (bits width : Nat) : Nat := min (bits + width) (limit - 1)

theorem extend_of_lt {bits width : Nat} (h : bits + width < limit) :
    extend bits width = bits + width := by
  simp only [extend, limit] at *
  omega

end Width

end SymWord
