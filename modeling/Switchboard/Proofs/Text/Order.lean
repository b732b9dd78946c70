import Mathlib.Data.String.Basic
import Switchboard.Proofs.Text.Cutting

/-! The order of texts.

Texts are ordered by their characters, and in UTF-8 that is the order of their bytes
(`utf8_lt_utf8_iff`): of two characters the smaller one has the smaller byte at the first place
where they differ. -/
namespace Switchboard.Text

theorem ofNat_lt_ofNat {m n : Nat} (hm : m < 256) (hn : n < 256) :
    UInt8.ofNat m < UInt8.ofNat n ↔ m < n := by
  rw [UInt8.lt_iff_toNat_lt, UInt8.toNat_ofNat', UInt8.toNat_ofNat', Nat.mod_eq_of_lt hm,
    Nat.mod_eq_of_lt hn]

theorem ofNat_eq_ofNat {m n : Nat} (hm : m < 256) (hn : n < 256) :
    UInt8.ofNat m = UInt8.ofNat n ↔ m = n := by
  rw [← UInt8.toNat_inj, UInt8.toNat_ofNat', UInt8.toNat_ofNat', Nat.mod_eq_of_lt hm,
    Nat.mod_eq_of_lt hn]

/-- The bytes of the smaller of two characters come first, whatever follows either of them. -/
theorem encodeChar_lt {c d : Char} (h : c < d) (x y : List UInt8) :
    String.utf8EncodeChar c ++ x < String.utf8EncodeChar d ++ y := by
  have hlt : c.val.toNat < d.val.toNat := h
  have hmax : d.val.toNat < 0x110000 := d.valid.elim (fun h => by omega) fun h => h.2
  -- each byte holds a digit of base 64
  have htwo (k : Nat) : k / 4096 = k / 64 / 64 := (Nat.div_div_eq_div_mul k 64 64).symm
  have hthree (k : Nat) : k / 262144 = k / 64 / 64 / 64 := by
    rw [Nat.div_div_eq_div_mul, Nat.div_div_eq_div_mul]
  simp only [String.utf8EncodeChar, htwo, hthree]
  generalize c.val.toNat = m at hlt
  generalize d.val.toNat = n at hlt hmax
  -- more bytes begin with a greater one, and as many are compared digit by digit
  repeat' split
  all_goals
    simp (disch := omega) only [List.cons_append, List.nil_append, List.cons_lt_cons_iff,
      ofNat_lt_ofNat, ofNat_eq_ofNat]
    omega

variable {s t : List Char}

theorem utf8_lt_utf8 (h : s < t) : utf8 s < utf8 t := by
  induction h with
  | @nil c t =>
    have hne : utf8 (c :: t) ≠ [] := List.append_ne_nil_of_left_ne_nil
      (List.ne_nil_of_length_pos (by rw [String.length_utf8EncodeChar]; exact c.utf8Size_pos)) _
    obtain ⟨byte, rest, hbytes⟩ := List.exists_cons_of_ne_nil hne
    rw [hbytes]
    exact List.nil_lt_cons byte rest
  | rel h => exact encodeChar_lt h ..
  | cons h ih => exact List.append_left_lt ih

/-- **Texts are ordered as their bytes are.** -/
theorem utf8_lt_utf8_iff : utf8 s < utf8 t ↔ s < t := by
  constructor
  · intro h
    rcases lt_trichotomy s t with hlt | rfl | hgt
    · exact hlt
    · exact absurd h (List.lt_irrefl _)
    · exact absurd h (List.lt_asymm (utf8_lt_utf8 hgt))
  · exact utf8_lt_utf8

/-! ### Lists of names -/

variable {names : List String}

/-- The bytes of each name come before those of the next ones. -/
def Ascending (names : List String) : Prop :=
  names.Pairwise fun m n => utf8 m.toList < utf8 n.toList

theorem ascending_iff : Ascending names ↔ names.Pairwise (· < ·) := by
  simp only [Ascending, utf8_lt_utf8_iff, String.lt_iff_toList_lt]

theorem Ascending.nodup (h : Ascending names) : names.Nodup :=
  (ascending_iff.mp h).imp fun hlt => ne_of_lt hlt

end Switchboard.Text
