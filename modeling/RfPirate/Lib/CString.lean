/-
Module: RfPirate.Lib.CString
Layer: Lib
Purpose: NUL-terminated strings in byte memory, and the C library functions over them: reading a
  string, storing a truncated one as `vsnprintf` does, formatting a byte, and `strncmp`.
Main exports: CStr, CString.ascii, CString.toCStr, CString.lit, CString.hex02, CString.cstr,
  CString.storeStr, CString.strncmp, CString.cstr_of_agree, CString.cstr_storeStr,
  CString.strncmp_length_eq_zero_iff
-/
import Mathlib.Data.List.TakeWhile

namespace Lib

/-- The characters of a C string: its bytes up to the terminator, none of them NUL. -/
structure CStr where
  bytes : List UInt8
  noNul : 0 ∉ bytes
deriving DecidableEq

namespace CString

/-- The bytes of a string literal. -/
def ascii (s : String) : List UInt8 := s.toList.map fun c => UInt8.ofNat c.toNat

/-- The C string that starts a list of bytes. -/
def toCStr (l : List UInt8) : CStr where
  bytes := l.takeWhile (· ≠ 0)
  noNul h := by simpa using List.mem_takeWhile_imp h

/-- The C string of a literal. -/
def lit (s : String) : CStr := toCStr (ascii s)

/-- The digit of a hexadecimal number; the letters start at `letterA`. -/
def hexDigit (letterA n : UInt8) : UInt8 := if n < 10 then 48 + n else letterA + (n - 10)

/-- What `printf` makes of a byte: `%02x` with `letterA` 97, `%02X` with 65. -/
def hex02 (letterA b : UInt8) : List UInt8 :=
  [hexDigit letterA (b >>> (4 : UInt8)), hexDigit letterA (b &&& 0xf)]

/-- The C string at `f`, of which at most `n` bytes may be read. -/
def cstr : Nat → (Nat → UInt8) → List UInt8
  | 0, _ => []
  | n + 1, f => if f 0 = 0 then [] else f 0 :: cstr n (fun i => f (i + 1))

/-- `vsnprintf` into a buffer of `size` bytes when the formatted text is `text`: the text is cut to
    `size - 1` bytes and a NUL follows. -/
def storeStr (size : Nat) (text : List UInt8) (f : Nat → UInt8) : Nat → UInt8 :=
  let kept := text.take (size - 1)
  fun i => if h : i < kept.length then kept[i] else if i = kept.length then 0 else f i

/-- `strncmp`. A byte past the end of a list is its terminator. -/
def strncmp : List UInt8 → List UInt8 → Nat → Int
  | _, _, 0 => 0
  | s, t, n + 1 =>
      let a := s.headD 0
      let b := t.headD 0
      if a ≠ b then (a.toNat : Int) - b.toNat
      else if a = 0 then 0
      else strncmp s.tail t.tail n

/-- A buffer that holds `l` followed by a NUL reads as `l` up to the first NUL in it. -/
theorem cstr_of_agree : ∀ {l : List UInt8} {n : Nat} {f : Nat → UInt8},
    (∀ i (h : i < l.length), f i = l[i]) → f l.length = 0 → l.length < n →
      cstr n f = l.takeWhile (· ≠ 0)
  | [], n + 1, f, _, hnul, _ => by
      simp only [List.length_nil] at hnul
      simp [cstr, hnul]
  | a :: l, n + 1, f, hagree, hnul, hlen => by
      have hhead : f 0 = a := hagree 0 (by simp)
      have htail : cstr n (fun i => f (i + 1)) = l.takeWhile (· ≠ 0) := by
        apply cstr_of_agree
        · intro i hi
          exact hagree (i + 1) (by simpa using hi)
        · exact hnul
        · simpa using hlen
      by_cases ha : a = 0
      · simp [cstr, hhead, ha]
      · simp [cstr, hhead, ha, htail]

theorem takeWhile_noNul {l : List UInt8} (h : 0 ∉ l) : l.takeWhile (· ≠ 0) = l := by
  apply List.takeWhile_eq_self_iff.mpr
  intro x hx
  have hne : x ≠ 0 := fun hzero => h (hzero ▸ hx)
  simpa using hne

/-- What `vsnprintf` stored reads back as the truncated text. -/
theorem cstr_storeStr {size : Nat} {text : List UInt8} (f : Nat → UInt8) (hsize : 0 < size)
    (htext : 0 ∉ text) : cstr size (storeStr size text f) = text.take (size - 1) := by
  have hkept : 0 ∉ text.take (size - 1) := fun h => htext (List.mem_of_mem_take h)
  have hlen : (text.take (size - 1)).length < size := by
    rw [List.length_take]
    omega
  rw [cstr_of_agree (l := text.take (size - 1)) ?_ ?_ hlen, takeWhile_noNul hkept]
  · intro i hi
    simp only [storeStr, dif_pos hi]
  · simp only [storeStr, dif_neg (Nat.lt_irrefl _), if_true]

/-- A text that was stored whole reads back from any longer stretch. -/
theorem cstr_storeStr_whole {n : Nat} {text : List UInt8} (f : Nat → UInt8) (htext : 0 ∉ text)
    (hlen : text.length < n) : cstr n (storeStr (text.length + 1) text f) = text := by
  have hkept : text.take (text.length + 1 - 1) = text := by simp
  rw [cstr_of_agree (l := text) ?_ ?_ hlen, takeWhile_noNul htext]
  · intro i hi
    simp only [storeStr, hkept, dif_pos hi]
  · simp only [storeStr, hkept, dif_neg (Nat.lt_irrefl _), if_true]

/-- A string that ends within a stretch reads the same from a longer one. -/
theorem cstr_succ_of_length_lt : ∀ {n : Nat} {f : Nat → UInt8}, (cstr n f).length < n →
    cstr (n + 1) f = cstr n f
  | n + 1, f, h => by
      by_cases hnul : f 0 = 0
      · simp [cstr, hnul]
      · have hrest : (cstr n fun i => f (i + 1)).length < n := by
          simpa [cstr, hnul] using h
        have hfirst : ∀ m, cstr (m + 1) f = f 0 :: cstr m fun i => f (i + 1) := fun m => by
          rw [cstr, if_neg hnul]
        rw [hfirst, hfirst, cstr_succ_of_length_lt hrest]

@[simp] theorem cstr_eq_nil_iff {n : Nat} {f : Nat → UInt8} : cstr (n + 1) f = [] ↔ f 0 = 0 := by
  by_cases h : f 0 = 0 <;> simp [cstr, h]

theorem uint8_sub_eq_zero_iff (a b : UInt8) : (a.toNat : Int) - b.toNat = 0 ↔ a = b := by
  rw [← UInt8.toNat_inj]
  omega

/-- Comparing over the length of the first string tests whether it is a prefix of the second. -/
theorem strncmp_length_eq_zero_iff : ∀ {s t : List UInt8}, 0 ∉ s →
    (strncmp s t s.length = 0 ↔ s <+: t)
  | [], t, _ => by simp [strncmp]
  | a :: s, t, hs => by
      have ha : a ≠ 0 := fun h => hs (by simp [h])
      have htail : 0 ∉ s := fun h => hs (List.mem_cons_of_mem a h)
      cases t with
      | nil =>
          have hne : (a.toNat : Int) - (0 : UInt8).toNat ≠ 0 := mt (uint8_sub_eq_zero_iff a 0).mp ha
          simpa [strncmp, ha] using hne
      | cons b t =>
          by_cases hab : a = b
          · subst hab
            simp [strncmp, ha, strncmp_length_eq_zero_iff htail]
          · have hne : (a.toNat : Int) - b.toNat ≠ 0 := mt (uint8_sub_eq_zero_iff a b).mp hab
            simp [strncmp, hab, hne]

end CString

end Lib
