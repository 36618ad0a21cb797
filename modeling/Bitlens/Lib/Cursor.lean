import Mathlib.Data.List.Basic

namespace Bitlens.Lib

variable {κ ε : Type}

/-- The pages of a list, each requested with the key of the last item of the one before it; an
empty page ends them. -/
inductive Pages (request : κ → List ε) (keyOf : ε → κ) : κ → List (List ε) → Prop
  | stop {cursor : κ} (empty : request cursor = []) : Pages request keyOf cursor []
  | next {cursor : κ} {last : ε} {pages : List (List ε)} (ends : (request cursor).getLast? = some last)
      (rest : Pages request keyOf (keyOf last) pages) : Pages request keyOf cursor (request cursor :: pages)

namespace Pages

variable {request : κ → List ε} {keyOf : ε → κ} {cursor : κ} {pages : List (List ε)}

theorem mem_request {x : ε} (run : Pages request keyOf cursor pages) (member : x ∈ pages.flatten) :
    ∃ cursor, x ∈ request cursor := by
  induction run with
  | stop => cases member
  | @next cursor last pages ends rest ih =>
    rw [List.flatten_cons, List.mem_append] at member
    rcases member with here | later
    · exact ⟨cursor, here⟩
    · exact ih later

/-- Where the page behind the last item of a page is never empty, the pages have no end, unless
there is none. -/
theorem eq_nil_of_endless (run : Pages request keyOf cursor pages)
    (endless : ∀ cursor last, (request cursor).getLast? = some last → request (keyOf last) ≠ []) : pages = [] := by
  induction run with
  | stop => rfl
  | @next cursor last pages ends rest ih =>
    rw [ih] at rest
    cases rest with
    | stop empty => exact absurd empty (endless cursor last ends)

end Pages

end Bitlens.Lib
