import Mathlib.Init

/-!
# Writes of several addresses

A write gives new contents to some addresses of a store and leaves the others alone.  After a list
of such writes, which may overlap in any way, an address holds what the last write that covers it
has put there.
-/

namespace Mcsos

variable {ι β ω : Type}

/-- The store after the write `w`, which has the contents `content w x` for the addresses it
covers. -/
def overlay (content : ω → ι → Option β) (d : ι → β) (w : ω) : ι → β :=
  fun x => (content w x).getD (d x)

theorem overlay_of_none {content : ω → ι → Option β} {w : ω} (h : ∀ x, content w x = none)
    (d : ι → β) :
    overlay content d w = d := by
  funext x
  rw [overlay, h x, Option.getD_none]

/-- The last write to an address decides. -/
theorem foldl_overlay_apply (content : ω → ι → Option β) (ws : List ω) (d : ι → β) (x : ι) :
    ws.foldl (overlay content) d x = (ws.reverse.findSome? (content · x)).getD (d x) := by
  induction ws generalizing d with
  | nil => rfl
  | cons w ws ih =>
      rw [List.foldl_cons, ih, List.reverse_cons, List.findSome?_append]
      cases ws.reverse.findSome? (content · x) with
      | some b => rfl
      | none =>
          rw [Option.getD_none, overlay, Option.none_or, List.findSome?_singleton]

end Mcsos
