import Mathlib
import InsecureLinks.Digest.Sha256
import InsecureLinks.Proofs.Text.Numeral
import InsecureLinks.Proofs.Text.Utf8

/-!
# The form of a digest

Written out, a digest has sixty-four digits, whatever was digested (`length_hex`), and as many bytes
(`length_encode_hex`).
-/

namespace InsecureLinks.Sha256

open Utf8 (Bytes)

theorem length_digest (message : Bytes) : (digest message).length = 32 := by
  simp [digest, wordBytes]

theorem length_hex (message : Bytes) : (hex message).length = 64 := by
  have hbyte : ∀ b ∈ digest message, (Text.hexadecimal 2 b.toNat).length = 2 :=
    fun b _ => Text.length_hexadecimal 2 b.toNat
  rw [hex, List.length_flatMap, List.map_congr_left hbyte, List.map_const', List.sum_replicate,
    length_digest]
  rfl

theorem isDigit_of_mem_hex {message : Bytes} {c : Char} (h : c ∈ hex message) : Text.IsDigit c := by
  obtain ⟨b, -, hc⟩ := List.mem_flatMap.1 h
  exact Text.isDigit_of_mem_hexadecimal hc

theorem length_encode_hex (message : Bytes) : (Utf8.encode (hex message)).length = 64 := by
  have hchar : ∀ c ∈ hex message, (Utf8.encodeChar c).length = 1 := by
    intro c hc
    rw [Utf8.encodeChar_one (isDigit_of_mem_hex hc).toNat_range.2]
    rfl
  rw [Utf8.encode, List.length_flatMap, List.map_congr_left hchar, List.map_const',
    List.sum_replicate, length_hex]
  rfl

end InsecureLinks.Sha256
