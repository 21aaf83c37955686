import Npnpm.Tarball.Containment

/-!
# Paths of the store

The path of a stored file is made of a digest and a suffix. Digests are written in
hexadecimal, so the path tells both: files with different digests or suffixes have
different paths, and no content-addressed file is an index.
-/

namespace Npnpm

def isHexDigit (c : Char) : Bool := c.isDigit || ('a' ≤ c && c ≤ 'f')

/-- A text of lowercase hexadecimal digits. -/
def IsHex (s : Text) : Prop := ∀ c ∈ s, isHexDigit c = true

instance (s : Text) : Decidable (IsHex s) := inferInstanceAs (Decidable (∀ c ∈ s, _))

theorem IsHex.notMem {s : Text} (h : IsHex s) {c : Char} (hc : isHexDigit c = false) :
    c ∉ s := by
  intro hmem
  rw [h c hmem] at hc
  cases hc

theorem IsHex.drop {s : Text} (h : IsHex s) (n : Nat) : IsHex (s.drop n) :=
  fun c hc => h c (List.mem_of_mem_drop hc)

/-- The suffixes that a digest is followed by. -/
inductive StoreSuffix : Text → Prop
  | plain : StoreSuffix []
  | exec : StoreSuffix "-exec".toList
  | index : StoreSuffix "-index.json".toList

theorem storeSuffix_execSuffix (executable : Bool) : StoreSuffix (execSuffix executable) := by
  cases executable with
  | false => exact .plain
  | true => exact .exec

theorem execSuffix_ne_index (executable : Bool) :
    execSuffix executable ≠ "-index.json".toList := by
  cases executable <;> decide

theorem StoreSuffix.isAbsolute_append {s suffix : Text} (hs : IsHex s)
    (hsuffix : StoreSuffix suffix) : Path.isAbsolute (s ++ suffix) = false := by
  cases s with
  | nil => cases hsuffix <;> rfl
  | cons c rest =>
      have hc : c ≠ '/' := by
        rintro rfl
        exact hs.notMem (by decide) List.mem_cons_self
      simpa [Path.isAbsolute] using hc

theorem StoreSuffix.append_inj {s s' suffix suffix' : Text} (hs : IsHex s) (hs' : IsHex s')
    (hsuffix : StoreSuffix suffix) (hsuffix' : StoreSuffix suffix')
    (h : s ++ suffix = s' ++ suffix') : s = s' ∧ suffix = suffix' := by
  have hdash : ∀ {t : Text}, IsHex t → '-' ∉ t := fun ht => ht.notMem (by decide)
  have hplain : ∀ {t : Text} (t' : Text) {rest : Text}, IsHex t → t ≠ t' ++ '-' :: rest := by
    rintro t t' rest ht rfl
    exact hdash ht (by simp)
  cases hsuffix <;> cases hsuffix'
  · exact ⟨by simpa using h, rfl⟩
  · exact absurd (by simpa using h) (hplain s' hs)
  · exact absurd (by simpa using h) (hplain s' hs)
  · exact absurd (by simpa using h.symm) (hplain s hs')
  · exact (Text.append_cons_inj (hdash hs) (hdash hs')).mp h |>.imp_right fun _ => rfl
  · have := ((Text.append_cons_inj (hdash hs) (hdash hs')).mp h).2
    simp at this
  · exact absurd (by simpa using h.symm) (hplain s hs')
  · have := ((Text.append_cons_inj (hdash hs) (hdash hs')).mp h).2
    simp at this
  · exact (Text.append_cons_inj (hdash hs) (hdash hs')).mp h |>.imp_right fun _ => rfl

theorem join_eq_of_relative {dir path : Text} (hdir : dir ≠ [] ∧ dir.getLast? ≠ some '/')
    (hpath : Path.isAbsolute path = false) : Path.join dir path = dir ++ '/' :: path := by
  simp [Path.join, Path.push, hpath, hdir]

theorem getLast?_join {dir path : Text} (hpath : Path.isAbsolute path = false)
    (hne : path ≠ []) : (Path.join dir path).getLast? = path.getLast? := by
  unfold Path.join Path.push
  rw [if_neg (by simp [hpath])]
  have hlast := List.getLast?_eq_some_getLast hne
  split
  · rw [show dir ++ '/' :: path = dir ++ ['/'] ++ path by simp, List.getLast?_append, hlast]
    rfl
  · rw [List.getLast?_append, hlast]
    rfl

/-- The directory that holds all stored files. -/
def filesDir (storeDir : Text) : Text :=
  Path.join (Path.join storeDir "v3".toList) "files".toList

theorem filePathByHexStr_ok {storeDir hex suffix path : Text} (hhex : IsHex hex)
    (hsuffix : StoreSuffix suffix) (h : filePathByHexStr storeDir hex suffix = .ok path) :
    2 ≤ hex.length ∧
      path = filesDir storeDir ++ '/' :: (hex.take 2 ++ '/' :: (hex.drop 2 ++ suffix)) := by
  unfold filePathByHexStr at h
  split at h
  · cases h
  · rename_i hlen
    have hlen : 2 ≤ hex.length := by omega
    refine ⟨hlen, ?_⟩
    have hhead : IsHex (hex.take 2) := fun c hc => hhex c (List.mem_of_mem_take hc)
    have hheadne : hex.take 2 ≠ [] := by
      intro hnil
      have := congrArg List.length hnil
      simp only [List.length_take, List.length_nil] at this
      omega
    have hheadrel : Path.isAbsolute (hex.take 2) = false := by
      simpa using StoreSuffix.isAbsolute_append hhead .plain
    have hfiles : filesDir storeDir ≠ [] ∧ (filesDir storeDir).getLast? ≠ some '/' := by
      have hlast : (filesDir storeDir).getLast? = some 's' := getLast?_join rfl (by decide)
      exact ⟨fun hnil => by simp [hnil] at hlast, by simp [hlast]⟩
    have hjoin := join_eq_of_relative hfiles hheadrel
    have hdir : filesDir storeDir ++ '/' :: hex.take 2 ≠ [] ∧
        (filesDir storeDir ++ '/' :: hex.take 2).getLast? ≠ some '/' := by
      refine ⟨by simp, ?_⟩
      intro hlast
      have hmem : '/' ∈ hex.take 2 := by
        rw [← hjoin, getLast?_join hheadrel hheadne] at hlast
        exact List.mem_of_getLast? hlast
      exact hhead.notMem (by decide) hmem
    cases h
    calc Path.join (Path.join (filesDir storeDir) (hex.take 2)) (hex.drop 2 ++ suffix)
        = Path.join (filesDir storeDir ++ '/' :: hex.take 2) (hex.drop 2 ++ suffix) := by
          rw [hjoin]
      _ = filesDir storeDir ++ '/' :: hex.take 2 ++ '/' :: (hex.drop 2 ++ suffix) :=
          join_eq_of_relative hdir (StoreSuffix.isAbsolute_append (hhex.drop 2) hsuffix)
      _ = filesDir storeDir ++ '/' :: (hex.take 2 ++ '/' :: (hex.drop 2 ++ suffix)) := by
          simp

/-- A path of the store tells the digest and the suffix. -/
theorem filePathByHexStr_inj {storeDir hex hex' suffix suffix' path : Text} (hhex : IsHex hex)
    (hhex' : IsHex hex') (hsuffix : StoreSuffix suffix) (hsuffix' : StoreSuffix suffix')
    (h : filePathByHexStr storeDir hex suffix = .ok path)
    (h' : filePathByHexStr storeDir hex' suffix' = .ok path) :
    hex = hex' ∧ suffix = suffix' := by
  obtain ⟨hlen, hpath⟩ := filePathByHexStr_ok hhex hsuffix h
  obtain ⟨hlen', hpath'⟩ := filePathByHexStr_ok hhex' hsuffix' h'
  rw [hpath] at hpath'
  have hparts := List.append_cancel_left hpath'
  simp only [List.cons.injEq, true_and] at hparts
  have hslash : ∀ {t : Text}, IsHex t → '/' ∉ t.take 2 := fun ht hmem =>
    ht.notMem (by decide) (List.mem_of_mem_take hmem)
  obtain ⟨htake, hrest⟩ := (Text.append_cons_inj (hslash hhex) (hslash hhex')).mp hparts
  obtain ⟨hdrop, hsuf⟩ := StoreSuffix.append_inj (hhex.drop 2) (hhex'.drop 2) hsuffix hsuffix' hrest
  refine ⟨?_, hsuf⟩
  calc hex = hex.take 2 ++ hex.drop 2 := (List.take_append_drop 2 hex).symm
    _ = hex'.take 2 ++ hex'.drop 2 := by rw [htake, hdrop]
    _ = hex' := List.take_append_drop 2 hex'

end Npnpm
