import Xv6Bfs.Vm.Range

namespace Xv6Bfs.Vm

open Lib.Execution Function

variable {M : Machine} {pgdir pgdir' : Pgdir} {m m' m₀ : Mem} {u v a off : ℕ} {e : Pte} {l : List UInt8}

namespace Pgdir

/-- The byte that a process reads at an address, if its page is mapped with `PTE_P` and `PTE_U`. -/
def byte (pgdir : Pgdir) (m : Mem) (a : ℕ) : Option UInt8 :=
  match pgdir.tr (a / PGSIZE) with
  | some e => if e.u then some (m.phys e.ppn (a % PGSIZE)) else none
  | none => none

def Reads (pgdir : Pgdir) (m : Mem) (a : ℕ) (l : List UInt8) : Prop :=
  ∀ i, i < l.length → pgdir.byte m (a + i) = l[i]?

theorem byte_of_tr (he : pgdir.tr (a / PGSIZE) = some e) (hu : e.u = true) :
    pgdir.byte m a = some (m.phys e.ppn (a % PGSIZE)) := by
  rw [byte, he]
  exact if_pos hu

theorem byte_congr (htr : pgdir'.tr (a / PGSIZE) = pgdir.tr (a / PGSIZE))
    (hphys : ∀ e, pgdir.tr (a / PGSIZE) = some e → m'.phys e.ppn = m.phys e.ppn) :
    pgdir'.byte m' a = pgdir.byte m a := by
  rw [byte, byte, htr]
  cases he : pgdir.tr (a / PGSIZE) with
  | none => rfl
  | some e => simp only [hphys e he]

theorem Reads.congr (h : pgdir.Reads m a l)
    (hb : ∀ i, i < l.length → pgdir'.byte m' (a + i) = pgdir.byte m (a + i)) : pgdir'.Reads m' a l :=
  fun i hi ↦ (hb i hi).trans (h i hi)

theorem byte_write (hs : pgdir.Separate) (hv : v < 2 ^ 19) (he : pgdir.tr v = some e)
    (hu : e.u = true) (hend : off + l.length ≤ PGSIZE) (ha : a < KERNBASE) :
    pgdir.byte (m.write e.ppn off l) a =
      if v * PGSIZE + off ≤ a ∧ a < v * PGSIZE + off + l.length then l[a - (v * PGSIZE + off)]?
      else pgdir.byte m a := by
  have hpage : a / PGSIZE < 2 ^ 19 := by
    simp only [PGSIZE, KERNBASE] at ha ⊢
    omega
  by_cases hav : a / PGSIZE = v
  · have hoffset : a = v * PGSIZE + a % PGSIZE := by
      rw [← hav, Nat.mul_comm]
      exact (Nat.div_add_mod a PGSIZE).symm
    have htr : pgdir.tr (a / PGSIZE) = some e := by rw [hav, he]
    rw [byte_of_tr htr hu, byte_of_tr htr hu]
    by_cases hin : off ≤ a % PGSIZE ∧ a % PGSIZE < off + l.length
    · have hlt : a % PGSIZE - off < l.length := by omega
      rw [if_pos (by omega), show a - (v * PGSIZE + off) = a % PGSIZE - off by omega,
        List.getElem?_eq_getElem hlt]
      simp only [Mem.write, update_self, if_pos hin, List.getD_eq_getElem?_getD,
        List.getElem?_eq_getElem hlt, Option.getD_some]
    · rw [if_neg (by omega)]
      simp only [Mem.write, update_self, if_neg hin]
  · have hout : ¬ (v * PGSIZE + off ≤ a ∧ a < v * PGSIZE + off + l.length) := by
      intro hin
      refine hav ?_
      simp only [PGSIZE] at hin hend ⊢
      omega
    rw [if_neg hout]
    refine byte_congr rfl (fun e' he' ↦ update_of_ne (fun heq ↦ hav ?_) _ _)
    exact hs _ _ e' e hpage hv he' he heq

theorem reads_write (hs : pgdir.Separate) (hv : v < 2 ^ 19) (he : pgdir.tr v = some e)
    (hu : e.u = true) (hend : off + l.length ≤ PGSIZE) :
    pgdir.Reads (m.write e.ppn off l) (v * PGSIZE + off) l := by
  intro i hi
  have ha : v * PGSIZE + off + i < KERNBASE := by
    simp only [PGSIZE, KERNBASE] at hend ⊢
    omega
  rw [byte_write hs hv he hu hend ha, if_pos (by omega), Nat.add_sub_cancel_left]

end Pgdir

theorem Conserves.of_writes {held : ℕ → ℕ} (hf : m'.freelist = m.freelist)
    (hp : ∀ q, held q = 0 → m'.phys q = m.phys q) : Conserves held m held m' :=
  ⟨fun q ↦ by rw [hf], fun q hq ↦ hp q (by omega)⟩

theorem conserves_write (hv : v < 2 ^ 19) (he : pgdir.tr v = some e) :
    Conserves pgdir.holds m pgdir.holds (m.write e.ppn off l) := by
  refine .of_writes rfl (fun q hq ↦ update_of_ne ?_ _ _)
  rintro rfl
  have hpos := Pgdir.holds_pos hv he
  omega

end Xv6Bfs.Vm
