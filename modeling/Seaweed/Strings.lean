import Seaweed.CString

/-! The comparisons and `memmove` of `lib/string.c`. A comparison runs over lists as
`strcmp` does, and answers `none` when it reads past the end of one. `memmove` works on the
whole memory of 32-bit addresses, where a pointer that is moved on wraps around. -/

namespace Seaweed

def strncmp : ℕ → List UInt8 → List UInt8 → Option Int
  | 0, _, _ => some 0
  | count + 1, a :: as, b :: bs =>
    if a ≠ 0 ∧ a = b then strncmp count as bs else some ((a.toNat : Int) - (b.toNat : Int))
  | _ + 1, _, _ => none

def memcmp : ℕ → List UInt8 → List UInt8 → Option Int
  | 0, _, _ => some 0
  | count + 1, p :: ps, q :: qs =>
    if p ≠ q then some ((p.toNat : Int) - (q.toNat : Int)) else memcmp count ps qs
  | _ + 1, _, _ => none

abbrev Memory := UInt32 → UInt8

/-- `while (count--) *d++ = *s++;`. -/
def copyForwards : ℕ → UInt32 → UInt32 → Memory → Memory
  | 0, _, _, memory => memory
  | count + 1, d, s, memory => copyForwards count (d + 1) (s + 1) (Function.update memory d (memory s))

/-- `while (count--) *--d = *--s;`. -/
def copyBackwards : ℕ → UInt32 → UInt32 → Memory → Memory
  | 0, _, _, memory => memory
  | count + 1, d, s, memory =>
    copyBackwards count (d - 1) (s - 1) (Function.update memory (d - 1) (memory (s - 1)))

/-- What it returns, and the memory after it. -/
def memmove (dest src count : UInt32) (memory : Memory) : UInt32 × Memory :=
  if dest < src then (dest, copyForwards count.toNat dest src memory)
  else (dest, copyBackwards count.toNat (dest + count) (src + count) memory)

end Seaweed
