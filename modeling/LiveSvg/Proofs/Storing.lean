import LiveSvg.CommandLine.Files
import LiveSvg.Proofs.Characters
import LiveSvg.Proofs.Lines
import Mathlib.Tactic.Common
/-!
Files hold what has been written into them: the text comes back, if its lines end in line feeds.
-/

namespace LiveSvg

namespace Text

theorem toList_loop (b : ByteArray) (i : Nat) (done : List UInt8) :
    ByteArray.toList.loop b i done = done.reverse ++ b.data.toList.drop i := by
  fun_induction ByteArray.toList.loop b i done with
  | case1 i done h ih =>
    have hi : i < b.data.size := h
    have hget : b.get! i = b.data.toList[i] := getElem!_pos b.data i hi
    rw [ih, List.drop_eq_getElem_cons hi, hget, List.reverse_cons, List.append_assoc]
    rfl
  | case2 i done h =>
    have hi : b.data.toList.length ≤ i := Nat.le_of_not_lt h
    rw [List.drop_eq_nil_of_le hi, List.append_nil]

theorem Utf8.decode?_encode_text (s : String) : decode? (encode s) = some s.toList := by
  obtain ⟨l, rfl⟩ : ∃ l, s = String.ofList l := ⟨s.toList, String.ofList_toList.symm⟩
  have h : encode (String.ofList l) = l.flatMap String.utf8EncodeChar :=
    (toList_loop _ 0 []).trans List.toList_data_toByteArray
  rw [h, decode?_flatMap, String.toList_ofList]

end Text

namespace CommandLine.Files

variable {files files' : Files} {path text : String} {bytes : List UInt8}

theorem get?_set (files : Files) (path : String) (bytes : List UInt8) :
    (files.set path bytes).get? path = some bytes := by
  induction files with
  | nil => simp [set, get?]
  | cons f files ih =>
    obtain ⟨name, old⟩ := f
    rw [set]
    split
    · simp [get?]
    · next hne => rw [get?, if_neg hne, ih]

theorem mem_set {f : String × List UInt8} (h : f ∈ files.set path bytes) : f.1 = path ∨ f ∈ files := by
  induction files with
  | nil => exact .inl (by rw [List.mem_singleton.mp h])
  | cons g files ih =>
    obtain ⟨name, old⟩ := g
    rw [set] at h
    split at h
    · exact (List.mem_cons.mp h).imp (fun k => by rw [k]) (List.mem_cons_of_mem _)
    · rcases List.mem_cons.mp h with rfl | h
      · exact .inr List.mem_cons_self
      · exact (ih h).imp_right (List.mem_cons_of_mem _)

theorem not_isPrefixOf_self (cs : List Char) : (cs ++ ['/']).isPrefixOf cs = false := by
  rw [Bool.eq_false_iff]
  intro h
  have hlen := (List.isPrefixOf_iff_prefix.mp h).length_le
  rw [List.length_append, List.length_singleton] at hlen
  omega

/-- A file is as it was written. -/
theorem read_write (h : files.write path text = .ok files') (hr : '\r' ∉ text.toList) :
    files'.read path = .ok text := by
  unfold write at h
  dsimp only at h
  split at h
  · cases h
  split at h
  · cases h
  split at h
  · cases h
  split at h
  · cases h
  cases h
  next hzero hpass hdir _ =>
  have hpass' : passesFile (files.set (normalize path) (Text.Utf8.encode text)) (normalize path) = false := by
    refine List.any_eq_false.mpr ?_
    rintro ⟨name, bytes⟩ hf k
    rcases mem_set hf with rfl | hf
    · exact absurd k (Bool.eq_false_iff.mp (not_isPrefixOf_self _))
    · exact hpass (List.any_eq_true.mpr ⟨_, hf, k⟩)
  have hdir' : isDirectory (files.set (normalize path) (Text.Utf8.encode text)) (normalize path) = false := by
    unfold isDirectory at hdir ⊢
    rw [Bool.or_eq_true, not_or] at hdir
    rw [Bool.or_eq_false_iff]
    refine ⟨Bool.eq_false_iff.mpr hdir.1, List.any_eq_false.mpr ?_⟩
    rintro ⟨name, bytes⟩ hf k
    rcases mem_set hf with rfl | hf
    · exact absurd k (Bool.eq_false_iff.mp (not_isPrefixOf_self _))
    · exact hdir.2 (List.any_eq_true.mpr ⟨_, hf, k⟩)
  unfold read
  dsimp only
  rw [if_neg hzero, hpass', if_neg Bool.false_ne_true, hdir', if_neg Bool.false_ne_true, get?_set]
  simp only [Text.Utf8.decode?_encode_text, Text.withLineFeeds_eq_self hr, String.ofList_toList]

end CommandLine.Files

end LiveSvg
