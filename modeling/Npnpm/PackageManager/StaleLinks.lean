import Npnpm.Library.Walks
import Npnpm.PackageManager.LinkPackages

/-!
# What a link step leaves at its path

`symlink_package` asks with `exists` whether something stands at the path, and `exists`
follows links: a dangling link looks like a free place, on which the new link then cannot
be made. The link step takes that for success.
-/

namespace Npnpm

open Npnpm.Path Npnpm.FileTree

/-- `symlink_package` up to the directories above the path. -/
def createParents (t : Tree) (symlinkPath : Text) : Except SymlinkPackageError Tree :=
  match parent (components symlinkPath) with
  | some dir => (createDirAll t dir).mapError (.createParentDir dir)
  | none => .ok t

theorem symlinkPackage_eq (t : Tree) (symlinkTarget symlinkPath : Text) :
    symlinkPackage t symlinkTarget symlinkPath =
      createParents t symlinkPath >>= fun s => replaceLink s symlinkTarget symlinkPath := by
  unfold symlinkPackage createParents
  cases parent (components symlinkPath) <;> rfl

/-- A link to the target stands at the path. -/
def LinksTo (t : Tree) (symlinkTarget symlinkPath : Text) : Prop :=
  ∃ target, symlinkMetadata t (components symlinkPath) = .ok (.link target) ∧
    components target = components symlinkTarget

/-- The path is a link to the target, or both lead to one directory. -/
def LinkSettled (t : Tree) (symlinkTarget symlinkPath : Text) : Prop :=
  LinksTo t symlinkTarget symlinkPath ∨
    ∃ q, canonicalize t (components symlinkPath) = .ok q ∧
      canonicalize t (components symlinkTarget) = .ok q ∧ t.get q = some .dir

/-- What a link step does not replace: a dangling link to another place, or another way to
the target where the target is no directory. -/
def StaleKept (t : Tree) (symlinkTarget symlinkPath : Text) : Prop :=
  ¬ LinksTo t symlinkTarget symlinkPath ∧
    ((pathExists t (components symlinkPath) = false ∧
      ∃ target, symlinkMetadata t (components symlinkPath) = .ok (.link target)) ∨
    ∃ q, canonicalize t (components symlinkPath) = .ok q ∧
      canonicalize t (components symlinkTarget) = .ok q ∧ t.get q ≠ some .dir)

variable {t t' s : Tree} {symlinkTarget symlinkPath : Text}

/-- The link is made at a free place, or a node keeps its place. -/
theorem symlinkDir_or (h : symlinkDir t symlinkTarget symlinkPath = .ok t') :
    (LinksTo t' symlinkTarget symlinkPath ∧
      ∀ node, symlinkMetadata t (components symlinkPath) ≠ .ok node) ∨
      t' = t ∧ ∃ node, symlinkMetadata t (components symlinkPath) = .ok node := by
  unfold symlinkDir at h
  split at h
  · rename_i s hmake
    cases h
    exact Or.inl ⟨⟨symlinkTarget, symlinkMetadata_of_makeNode hmake, rfl⟩,
      fun node => symlinkMetadata_ne_of_makeNode hmake⟩
  · rename_i htaken
    cases h
    exact Or.inr ⟨rfl, makeNode_alreadyExists htaken⟩
  · cases h

/-- What was removed is not there for the link to meet. -/
theorem symlinkDir_of_removeStale (hremove : removeStale t (components symlinkPath) = .ok s)
    (h : symlinkDir s symlinkTarget symlinkPath = .ok t') :
    LinksTo t' symlinkTarget symlinkPath := by
  obtain ⟨q, hq, hne, rfl⟩ := removeStale_ok hremove
  rcases symlinkDir_or h with ⟨hmade, -⟩ | ⟨-, node, hnode⟩
  · exact hmade
  · obtain ⟨r, hr, htaken⟩ := symlinkMetadata_ok_iff.mp hnode
    have hsame := entry_of_holds (Holds.of_remove t hne) hr
    rw [hq, Except.ok.injEq] at hsame
    subst hsame
    rw [Tree.get_remove t hne, if_pos List.prefix_rfl] at htaken
    cases htaken

/-- Where both paths lead to one place, it is the place that counts. -/
theorem settled_iff_of_same {q : Loc} (hpath : canonicalize t (components symlinkPath) = .ok q)
    (htarget : canonicalize t (components symlinkTarget) = .ok q) :
    LinkSettled t symlinkTarget symlinkPath ↔ ¬ StaleKept t symlinkTarget symlinkPath := by
  unfold LinkSettled StaleKept
  have hexists : pathExists t (components symlinkPath) = true := pathExists_iff.mpr ⟨q, hpath⟩
  simp only [hpath, htarget, hexists, Except.ok.injEq, Bool.true_eq_false, false_and, false_or,
    exists_eq_left']
  tauto

/-- A dangling link settles what it is made for only. -/
theorem settled_iff_of_dangling (hno : pathExists t (components symlinkPath) = false)
    {node : Node} (hnode : symlinkMetadata t (components symlinkPath) = .ok node) :
    LinkSettled t symlinkTarget symlinkPath ↔ ¬ StaleKept t symlinkTarget symlinkPath := by
  obtain ⟨target, rfl⟩ := entry_link_of_not_exists hno hnode
  have hnot : ∀ q, canonicalize t (components symlinkPath) ≠ .ok q := fun q hq => by
    rw [pathExists_iff.mpr ⟨q, hq⟩] at hno
    cases hno
  unfold LinkSettled StaleKept
  simp only [hno, hnot, hnode, Except.ok.injEq, Node.link.injEq, false_and, exists_false, or_false,
    exists_eq', and_true, not_not]

/-- A link step settles its link unless it meets one of the kept kinds. -/
theorem replaceLink_settled_iff (h : replaceLink t symlinkTarget symlinkPath = .ok t') :
    LinkSettled t' symlinkTarget symlinkPath ↔ ¬ StaleKept t symlinkTarget symlinkPath := by
  unfold replaceLink at h
  simp only at h
  split at h
  · rename_i hexists
    obtain ⟨q, hq⟩ := pathExists_iff.mp hexists
    split at h
    · rename_i hsame
      cases h
      rw [hq] at hsame
      exact settled_iff_of_same hq (Results.toOption_eq_some hsame.symm)
    · rename_i hdifferent
      obtain ⟨s, hs, hlink⟩ := Results.bind_ok h
      apply iff_of_true (Or.inl (symlinkDir_of_removeStale (Results.mapError_ok hs) hlink))
      rintro ⟨-, ⟨hno, -⟩ | ⟨r, hr, htarget, -⟩⟩
      · rw [hexists] at hno
        cases hno
      · exact hdifferent (by rw [hr, htarget])
  · rename_i hno
    rw [Bool.not_eq_true] at hno
    rcases symlinkDir_or h with ⟨hmade, hfree⟩ | ⟨rfl, node, hnode⟩
    · apply iff_of_true (Or.inl hmade)
      rintro ⟨-, ⟨-, target, hlink⟩ | ⟨r, hr, -, -⟩⟩
      · exact hfree _ hlink
      · rw [pathExists_iff.mpr ⟨r, hr⟩] at hno
        cases hno
    · exact settled_iff_of_dangling hno hnode

/-- A successful link step leaves a link to the target, or a path that leads to the same
directory, exactly when what it meets under the path is not one of the kept kinds. -/
theorem symlinkPackage_settled_iff (h : symlinkPackage t symlinkTarget symlinkPath = .ok t') :
    LinkSettled t' symlinkTarget symlinkPath ↔
      ∀ s, createParents t symlinkPath = .ok s → ¬ StaleKept s symlinkTarget symlinkPath := by
  rw [symlinkPackage_eq] at h
  obtain ⟨s, hs, hreplace⟩ := Results.bind_ok h
  rw [replaceLink_settled_iff hreplace]
  constructor
  · intro hnot s' hs'
    rw [hs, Except.ok.injEq] at hs'
    exact hs' ▸ hnot
  · exact fun hall => hall s hs

section Samples

/-- A direct link whose package is gone. -/
def danglingTree : Tree :=
  (symlinkPackage .empty "/store/a@1".toList "/project/a".toList).toOption.getD .empty

/-- The project of another version of the package. -/
def relinkedTree : Tree :=
  (symlinkPackage danglingTree "/store/a@2".toList "/project/a".toList).toOption.getD .empty

theorem danglingTree_eq : symlinkPackage .empty "/store/a@1".toList "/project/a".toList =
    .ok danglingTree := by
  have hmade : (symlinkPackage .empty "/store/a@1".toList "/project/a".toList).isOk = true := by
    decide +kernel
  unfold danglingTree
  generalize symlinkPackage .empty "/store/a@1".toList "/project/a".toList = made at hmade
  exact Results.eq_getD_of_isOk .empty hmade

theorem relinkedTree_eq : symlinkPackage danglingTree "/store/a@2".toList "/project/a".toList =
    .ok relinkedTree := by
  have hmade : (symlinkPackage danglingTree "/store/a@2".toList "/project/a".toList).isOk =
      true := by decide +kernel
  unfold relinkedTree
  generalize symlinkPackage danglingTree "/store/a@2".toList "/project/a".toList = made at hmade
  exact Results.eq_getD_of_isOk .empty hmade

theorem danglingTree_link : symlinkMetadata danglingTree (components "/project/a".toList) =
    .ok (.link "/store/a@1".toList) := by decide +kernel

theorem danglingTree_settled : LinkSettled danglingTree "/store/a@1".toList "/project/a".toList :=
  Or.inl ⟨_, danglingTree_link, rfl⟩

/-- In an empty tree the link is made. -/
theorem symlinkPackage_settled_empty :
    LinkSettled danglingTree "/store/a@1".toList "/project/a".toList ∧
      ∀ s, createParents .empty "/project/a".toList = .ok s →
        ¬ StaleKept s "/store/a@1".toList "/project/a".toList :=
  ⟨danglingTree_settled, (symlinkPackage_settled_iff danglingTree_eq).mp danglingTree_settled⟩

/-- The link to the version that is gone stays, and the call succeeds. -/
theorem symlinkPackage_keeps_stale :
    symlinkPackage danglingTree "/store/a@2".toList "/project/a".toList = .ok relinkedTree ∧
      symlinkMetadata relinkedTree (components "/project/a".toList) =
        .ok (.link "/store/a@1".toList) ∧
      ¬ LinkSettled relinkedTree "/store/a@2".toList "/project/a".toList := by
  have hlink : symlinkMetadata relinkedTree (components "/project/a".toList) =
      .ok (.link "/store/a@1".toList) := by decide +kernel
  have hnot : canonicalize relinkedTree (components "/project/a".toList) = .error .notFound := by
    decide +kernel
  refine ⟨relinkedTree_eq, hlink, ?_⟩
  rintro (⟨target, htarget, hsame⟩ | ⟨q, hq, -, -⟩)
  · rw [hlink] at htarget
    cases htarget
    exact absurd hsame (by decide)
  · rw [hnot] at hq
    cases hq

end Samples

end Npnpm
