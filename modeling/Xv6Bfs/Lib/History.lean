import Mathlib.Data.List.Basic

namespace Xv6Bfs.Lib.History

variable {E : Type} {ok : List E → E → Prop} {e : E} {l l' : List E}

/-- Every event of a history, the last one first, is justified by those before it. -/
def Orderly (ok : List E → E → Prop) : List E → Prop
  | [] => True
  | e :: l => ok l e ∧ Orderly ok l

theorem Orderly.suffix (h : Orderly ok l) (hl : l' <:+ l) : Orderly ok l' := by
  induction l with
  | nil => rwa [List.suffix_nil.mp hl]
  | cons e l ih =>
    rcases List.suffix_cons_iff.mp hl with rfl | hl
    · exact h
    · exact ih h.2 hl

theorem Orderly.justified (h : Orderly ok l) (hl : e :: l' <:+ l) : ok l' e :=
  (h.suffix hl).1

end Xv6Bfs.Lib.History
