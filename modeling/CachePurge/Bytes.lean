import Mathlib.Data.List.Basic
import Mathlib.Data.List.Induction
import Mathlib.Tactic.IntervalCases
import Mathlib.Data.Nat.Bitwise

/-! Bytes and the few core string helpers the module calls. A C string with a
length is a list of bytes; memory comparison is list equality. -/
namespace CachePurge

abbrev Bytes := List UInt8

inductive Rc where
  | ok | error | again | busy | done | declined | abort
  deriving DecidableEq, Repr

def star : UInt8 := 42
def colon : UInt8 := 58
def slash : UInt8 := 47

def tolower (c : UInt8) : UInt8 := if 65 ≤ c ∧ c ≤ 90 then c ||| 0x20 else c

def lowered (s : Bytes) : Bytes := s.map tolower

@[simp] theorem loweredLength (s : Bytes) : (lowered s).length = s.length := by simp [lowered]

def isDigit (c : UInt8) : Bool := 48 ≤ c && c ≤ 57

/- One digit of ngx_hextoi, which accepts either letter case. -/
def hextoi (c : UInt8) : Option UInt8 :=
  if isDigit c then some (c - 48)
  else
    let c := c ||| 0x20
    if 97 ≤ c ∧ c ≤ 102 then some (c - 87) else none

def hexChar (d : Nat) : UInt8 := if d < 10 then 48 + d.toUInt8 else 87 + d.toUInt8

theorem hextoiChar {d : Nat} (small : d < 16) : hextoi (hexChar d) = some d.toUInt8 := by
  interval_cases d <;> decide

/- The zero-padded lowercase digits of %0<width>xL, most significant first. -/
def hexDigits : Nat → Nat → Bytes
  | 0, _ => []
  | width + 1, v => hexDigits width (v / 16) ++ [hexChar (v % 16)]

@[simp] theorem hexDigitsLength (width v : Nat) : (hexDigits width v).length = width := by
  induction width generalizing v with
  | zero => rfl
  | succ width ih => simp [hexDigits,ih]

def hexStep (value : UInt64) (c : UInt8) : Option UInt64 :=
  (hextoi c).map fun d => (value <<< 4) ||| d.toUInt64

theorem hexStepChar {high low : Nat} (small : low < 16) (fits : high * 16 + low < 2^64) :
    hexStep high.toUInt64 (hexChar low) = some (high * 16 + low).toUInt64 := by
  simp only [hexStep,hextoiChar small,Option.map_some,Option.some.injEq]
  apply UInt64.toNat_inj.mp
  have h : high < 2^64 := by omega
  have shifted : high <<< 4 < 2^64 := by rw [Nat.shiftLeft_eq]; omega
  have digit : (low.toUInt8.toUInt64).toNat = low := by
    simp [Nat.toUInt8]; omega
  simp only [UInt64.toNat_or,UInt64.toNat_shiftLeft,Nat.toUInt64,UInt64.toNat_ofNat',
    Nat.mod_eq_of_lt h,Nat.mod_eq_of_lt fits]
  rw [digit]
  have four : (UInt64.toNat 4) % 64 = 4 := rfl
  rw [four,Nat.mod_eq_of_lt shifted,← Nat.shiftLeft_add_eq_or_of_lt (show low < 2^4 by omega),
    Nat.shiftLeft_eq]

theorem hexRoundTrip {width v : Nat} (fits : v < 16^width) (bound : width ≤ 16) :
    (hexDigits width v).foldlM hexStep 0 = some v.toUInt64 := by
  induction width generalizing v with
  | zero =>
    have zero : v = 0 := by simpa using fits
    subst v
    rfl
  | succ width ih =>
    have high : v / 16 < 16^width := by
      rw [Nat.div_lt_iff_lt_mul (by decide)]
      simpa [Nat.pow_succ] using fits
    have small : v < 2^64 := by
      have h : (16:Nat)^(width+1) ≤ 16^16 := Nat.pow_le_pow_right (by decide) bound
      exact lt_of_lt_of_le fits (h.trans (by decide))
    have joined : v / 16 * 16 + v % 16 = v := by omega
    simp only [hexDigits,List.foldlM_append,ih high (by omega),List.foldlM_cons,List.foldlM_nil]
    change (hexStep (v / 16).toUInt64 (hexChar (v % 16))).bind some = _
    rw [hexStepChar (Nat.mod_lt _ (by decide)) (by omega),joined]
    rfl

theorem hextoiDigit {c d : UInt8} (accepted : hextoi c = some d) :
    d.toNat < 16 ∧ hexChar d.toNat = tolower c := by
  have all : ∀ n : Fin 256, (hextoi (UInt8.ofNat n)).all fun d =>
      decide (d.toNat < 16 ∧ hexChar d.toNat = tolower (UInt8.ofNat n)) := by decide +kernel
  have here := all ⟨c.toNat,c.toNat_lt⟩
  simp only [UInt8.ofNat_toNat,accepted,Option.all_some,decide_eq_true_eq] at here
  exact here

theorem hexStepSource {u v : UInt64} {c : UInt8} (small : u.toNat < 2^60) (read : hexStep u c = some v) :
    ∃ d, d < 16 ∧ v.toNat = u.toNat * 16 + d ∧ hexChar d = tolower c := by
  obtain ⟨d,digit,rfl⟩ := Option.map_eq_some_iff.mp read
  obtain ⟨bound,shape⟩ := hextoiDigit digit
  refine ⟨d.toNat,bound,?_,shape⟩
  have back := @hexStepChar u.toNat d.toNat bound (by omega)
  simp only [hexStep,hextoiChar bound,Option.map_some,Option.some.injEq] at back
  have fits : u.toNat * 16 + d.toNat < 2^64 := by omega
  have value := congrArg UInt64.toNat back
  simp only [Nat.toUInt64,Nat.toUInt8,UInt64.ofNat_toNat,UInt8.ofNat_toNat,UInt64.toNat_ofNat',
    Nat.mod_eq_of_lt fits] at value
  exact value

theorem hexCanonical {s : Bytes} {v : UInt64} (read : s.foldlM hexStep 0 = some v) (short : s.length ≤ 16) :
    v.toNat < 16^s.length ∧ lowered s = hexDigits s.length v.toNat := by
  induction s using List.reverseRecOn generalizing v with
  | nil =>
    cases Option.some.inj read
    exact ⟨by decide,rfl⟩
  | append_singleton front c ih =>
    simp only [List.length_append,List.length_singleton] at short ⊢
    rw [List.foldlM_append] at read
    obtain ⟨u,first,last⟩ := Option.bind_eq_some_iff.mp read
    obtain ⟨below,digits⟩ := ih first (by omega)
    have room : u.toNat < 2^60 := by
      have bound : (16:Nat)^front.length ≤ 16^15 := Nat.pow_le_pow_right (by decide) (by omega)
      exact lt_of_lt_of_le below (bound.trans (by decide))
    have step : hexStep u c = some v := by simpa using last
    obtain ⟨d,small,value,shape⟩ := hexStepSource room step
    refine ⟨by rw [value,Nat.pow_succ]; omega,?_⟩
    simp only [hexDigits,value,lowered,List.map_append,List.map_cons,List.map_nil] at digits ⊢
    rw [show (u.toNat * 16 + d) / 16 = u.toNat by omega,show (u.toNat * 16 + d) % 16 = d by omega,
      digits,shape]

end CachePurge
