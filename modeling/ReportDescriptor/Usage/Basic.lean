import ReportDescriptor.Text.Hex

/-!
# Usages

A usage names what a value means: a page and an id on that page, sixteen bits each. Its 32-bit
value has the page in the high half.
-/

namespace ReportDescriptor

structure Usage where
  page : UInt16
  id : UInt16
deriving DecidableEq

namespace Usage

def value (u : Usage) : Nat :=
  u.page.toNat * 65536 + u.id.toNat

def ofValue (v : UInt32) : Usage :=
  ⟨UInt16.ofNat (v.toNat / 65536), UInt16.ofNat v.toNat⟩

theorem value_inj {u v : Usage} (h : u.value = v.value) : u = v := by
  have hu := u.id.toNat_lt
  have hv := v.id.toNat_lt
  simp only [value] at h
  obtain ⟨up, ui⟩ := u
  obtain ⟨vp, vi⟩ := v
  simp only at h hu hv
  rw [mk.injEq]
  exact ⟨UInt16.toNat.inj (by omega), UInt16.toNat.inj (by omega)⟩

/-- Page and id with four hexadecimal digits each, as in `0x0001:0x0030`. -/
def text (u : Usage) : String :=
  Hex.number 4 u.page.toNat ++ ":" ++ Hex.number 4 u.id.toNat

end Usage

end ReportDescriptor
