set_option autoImplicit false

/-!
Letters of ASCII in either case. Two characters have one small form exactly if they are the same
character or the two cases of such a letter (`sameLetter_iff`).
-/

namespace ListQuery.Text

/-- The same character, or the capital and the small form of one letter of ASCII. -/
def SameLetter (c d : Char) : Prop :=
  c = d ∨ ('A' ≤ c ∧ c ≤ 'Z' ∧ d.toNat = c.toNat + 32) ∨
    ('A' ≤ d ∧ d ≤ 'Z' ∧ c.toNat = d.toNat + 32)

theorem toNat_toLower (c : Char) :
    c.toLower.toNat = if 65 ≤ c.toNat ∧ c.toNat ≤ 90 then c.toNat + 32 else c.toNat := by
  have bounds : c.val ≥ 'A'.val ∧ c.val ≤ 'Z'.val ↔ 65 ≤ c.toNat ∧ c.toNat ≤ 90 :=
    and_congr UInt32.le_iff_toNat_le UInt32.le_iff_toNat_le
  delta Char.toLower
  split
  · rename_i capital
    have within := bounds.mp capital
    have value : (c.toNat + 32) % 2 ^ 32 = c.toNat + 32 := Nat.mod_eq_of_lt (by omega)
    rw [if_pos within]
    exact value
  · rename_i other
    rw [if_neg fun within => other (bounds.mpr within)]

theorem sameLetter_iff {c d : Char} : SameLetter c d ↔ c.toLower = d.toLower := by
  have value (first second : Char) : first = second ↔ first.toNat = second.toNat :=
    Char.ext_iff.trans UInt32.toNat_inj.symm
  have capital (e : Char) : 'A' ≤ e ∧ e ≤ 'Z' ↔ 65 ≤ e.toNat ∧ e.toNat ≤ 90 :=
    and_congr UInt32.le_iff_toNat_le UInt32.le_iff_toNat_le
  unfold SameLetter
  rw [value c d, value c.toLower, toNat_toLower, toNat_toLower, ← and_assoc, ← and_assoc,
    capital, capital]
  split <;> split <;> omega

end ListQuery.Text
