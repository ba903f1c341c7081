import TraceFlow.Failure

set_option autoImplicit false

namespace TraceFlow

abbrev sizeBound : Nat := 0x10000000000000000

abbrev indexBound : Nat := 0x8000000000000000

def checkSize (n : Nat) : Outcome Nat :=
  if n < sizeBound then .ok n else .error (.fault .overflow)

def checkIndex (i : Int) : Outcome Int :=
  if -indexBound ≤ i ∧ i < indexBound then .ok i else .error (.fault .overflow)

theorem checkSize_eq_ok {n : Nat} (small : n < sizeBound) : checkSize n = .ok n := by
  rw [checkSize, if_pos small]

theorem checkIndex_eq_ok {i : Int} (low : -indexBound ≤ i) (high : i < indexBound) :
    checkIndex i = .ok i := by
  rw [checkIndex, if_pos ⟨low, high⟩]

def sizeProduct (sizes : List Nat) : Outcome Nat :=
  sizes.foldlM (fun total n => checkSize (total * n)) 1

def sizeSum (sizes : List Nat) : Outcome Nat :=
  sizes.foldlM (fun total n => checkSize (total + n)) 0

def signedWord (n : Nat) : Int :=
  Int.bmod n sizeBound

theorem signedWord_eq {n : Nat} (small : n < indexBound) : signedWord n = n := by
  simp only [indexBound] at small
  exact Int.bmod_eq_of_le (by simp only [sizeBound]; omega) (by simp only [sizeBound]; omega)

-- Refuses a block of `count` items of `width` bytes that no allocation can hold.
def checkCapacity (count width : Nat) : Outcome Unit :=
  if count * width < indexBound then .ok () else .error (.fault .overflow)

end TraceFlow
