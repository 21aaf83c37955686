import Npnpm.Lockfile.NameRoundTrip
import Npnpm.Lockfile.RootSnapshot

/-!
# A lockfile that is written and read again

Each type of the lockfile is read back when the values that it holds are, and
each value that was read from a document holds such values. Of an untagged
enumeration this needs that the alternatives tried before the right one reject
what the right one writes.
-/

namespace Npnpm

open Npnpm.Serde Npnpm.Text

/-- An integrity that was parsed is displayed as a text that parses to it. -/
class RoundTripSsri (I : Type) [SsriParse I] [SsriDisplay I] : Prop where
  parse_display : ∀ (s : Text) (i : I), SsriParse.parse s = .ok i →
    SsriParse.parse (SsriDisplay.display i) = .ok i

section Version

theorem LockfileVersion.readsBack {major : Nat} (hmajor : major < 2 ^ 16)
    {version : LockfileVersion major} (h : version.comver.minor < 2 ^ 16) :
    ReadsBack (LockfileVersion.decode major) (LockfileVersion.encode major) version where
  decode_encode reading := by
    obtain ⟨comver, hcompatible⟩ := version
    have hread := (readsBack_tryFromStr (ComVer.fromStr_display
      (hcompatible.symm ▸ hmajor) h)).decode_encode reading
    simp only [LockfileVersion.decode, LockfileVersion.encode, hread, Option.bind_some, tryFrom,
      dif_pos hcompatible]
  notNull := rfl

end Version

section Resolution

variable {I : Type} [SsriParse I] [SsriDisplay I]

theorem readsBack_integrity [RoundTripSsri I] {s : Text} {integrity : I}
    (h : SsriParse.parse s = .ok integrity) :
    ReadsBack decodeIntegrity encodeIntegrity integrity where
  decode_encode reading := by
    rw [decodeIntegrity, encodeIntegrity, (readsBack_string _).decode_encode, Option.bind_some,
      RoundTripSsri.parse_display s integrity h]
    rfl
  notNull := rfl

theorem faithful_integrity [RoundTripSsri I] :
    Faithful (decodeIntegrity (I := I)) encodeIntegrity := by
  intro reading d integrity h
  obtain ⟨text, -, hparse⟩ := Option.bind_eq_some_iff.mp h
  cases hp : SsriParse.parse (I := I) text with
  | error e =>
      rw [hp] at hparse
      cases hparse
  | ok i =>
      rw [hp] at hparse
      rw [← Option.some.inj hparse]
      exact readsBack_integrity hp

/-- The integrity of a resolution, if it has one, is read back. -/
def LockfileResolution.Sound (resolution : LockfileResolution I) : Prop :=
  ∀ integrity, resolution.integrity = some integrity →
    ReadsBack decodeIntegrity encodeIntegrity integrity

theorem TarballResolution.decode_encode {resolution : TarballResolution I}
    (h : ∀ integrity, resolution.integrity = some integrity →
      ReadsBack decodeIntegrity encodeIntegrity integrity) (reading : Reading) :
    TarballResolution.decode reading (encodeFields resolution.toFields) = some resolution := by
  have hnodup : (resolution.toFields.map Prod.fst).Nodup :=
    (by decide : ["tarball".toList, "integrity".toList].Nodup)
  have hfields : fields ["tarball".toList, "integrity".toList] true reading
      (encodeFields resolution.toFields) = some (present resolution.toFields) :=
    fields_encodeFields rfl hnodup true reading
  have htarball := requiredField_present hnodup (readsBack_string resolution.tarball)
    (List.mem_cons_self) reading
  have hintegrity := optionalField_present hnodup h
    (List.mem_cons_of_mem _ List.mem_cons_self) reading
  apply read_next hfields
  apply read_next htarball
  apply read_next hintegrity
  rfl

theorem RegistryResolution.decode_encode {resolution : RegistryResolution I}
    (h : ReadsBack decodeIntegrity encodeIntegrity resolution.integrity) (reading : Reading) :
    RegistryResolution.decode reading (encodeFields resolution.toFields) = some resolution := by
  have hnodup : (resolution.toFields.map Prod.fst).Nodup := List.nodup_singleton _
  have hfields : fields ["integrity".toList] true reading (encodeFields resolution.toFields) =
      some (present resolution.toFields) := fields_encodeFields rfl hnodup true reading
  have hintegrity := requiredField_present hnodup h List.mem_cons_self reading
  apply read_next hfields
  apply read_next hintegrity
  rfl

theorem DirectoryResolution.decode_encode (resolution : DirectoryResolution)
    (reading : Reading) :
    DirectoryResolution.decode reading (encodeFields resolution.toFields) = some resolution := by
  have hnodup : (resolution.toFields.map Prod.fst).Nodup := List.nodup_singleton _
  have hfields : fields ["directory".toList] true reading (encodeFields resolution.toFields) =
      some (present resolution.toFields) := fields_encodeFields rfl hnodup true reading
  have hdirectory := requiredField_present hnodup (readsBack_string resolution.directory)
    List.mem_cons_self reading
  apply read_next hfields
  apply read_next hdirectory
  rfl

theorem GitResolution.decode_encode (resolution : GitResolution) (reading : Reading) :
    GitResolution.decode reading (encodeFields resolution.toFields) = some resolution := by
  have hnodup : (resolution.toFields.map Prod.fst).Nodup :=
    (by decide : ["repo".toList, "commit".toList].Nodup)
  have hfields : fields ["repo".toList, "commit".toList] true reading
      (encodeFields resolution.toFields) = some (present resolution.toFields) :=
    fields_encodeFields rfl hnodup true reading
  have hrepo := requiredField_present hnodup (readsBack_string resolution.repo)
    List.mem_cons_self reading
  have hcommit := requiredField_present hnodup (readsBack_string resolution.commit)
    (List.mem_cons_of_mem _ List.mem_cons_self) reading
  apply read_next hfields
  apply read_next hrepo
  apply read_next hcommit
  rfl

/-- A structure without a tarball is no tarball resolution. -/
theorem TarballResolution.decode_registry (resolution : RegistryResolution I)
    (reading : Reading) :
    TarballResolution.decode (I := I) reading (encodeFields resolution.toFields) = none := by
  have hfields : fields ["tarball".toList, "integrity".toList] true reading
      (encodeFields resolution.toFields) = some (present resolution.toFields) := by
    cases reading <;> rfl
  have htarball : requiredField string reading (present resolution.toFields) "tarball".toList =
      none := rfl
  simp only [TarballResolution.decode, hfields, htarball, Option.bind_eq_bind, Option.bind_some,
    Option.bind_none]

omit [SsriDisplay I] in
/-- The resolutions that deny unknown fields deny the tag. -/
theorem decode_tagged_eq_none (tag : Text) (fields : List (Text × Option Document))
    (reading : Reading) :
    TarballResolution.decode (I := I) reading (encodeTagged tag fields) = none ∧
      RegistryResolution.decode (I := I) reading (encodeTagged tag fields) = none := by
  have hmem : ("type".toList, some (Document.str tag)) ∈
      ("type".toList, some (.str tag)) :: fields := List.mem_cons_self
  constructor
  · simp only [TarballResolution.decode, encodeTagged,
      fields_encodeFields_unknown hmem
        (by decide : "type".toList ∉ ["tarball".toList, "integrity".toList]) reading,
      Option.bind_eq_bind, Option.bind_none]
  · simp only [RegistryResolution.decode, encodeTagged,
      fields_encodeFields_unknown hmem (by decide : "type".toList ∉ ["integrity".toList]) reading,
      Option.bind_eq_bind, Option.bind_none]

omit [SsriParse I] [SsriDisplay I] in
theorem LockfileResolution.decodeTagged_directory (resolution : DirectoryResolution)
    (reading : Reading) :
    LockfileResolution.decodeTagged (I := I) reading
      (encodeTagged "directory".toList resolution.toFields) = some (.directory resolution) := by
  have hsplit : splitTag "type".toList (encodeTagged "directory".toList resolution.toFields) =
      some (.str "directory".toList, encodeFields resolution.toFields) :=
    splitTag_encodeFields (by decide : "type".toList ∉ ["directory".toList]) _
  have htag : identify ["directory".toList, "git".toList] reading (.str "directory".toList) =
      some (some "directory".toList) := by cases reading <;> rfl
  simp only [decodeTagged, hsplit, htag, Option.bind_eq_bind, Option.bind_some, if_true,
    DirectoryResolution.decode_encode, Option.map_some]

omit [SsriParse I] [SsriDisplay I] in
theorem LockfileResolution.decodeTagged_git (resolution : GitResolution) (reading : Reading) :
    LockfileResolution.decodeTagged (I := I) reading
      (encodeTagged "git".toList resolution.toFields) = some (.git resolution) := by
  have hsplit : splitTag "type".toList (encodeTagged "git".toList resolution.toFields) =
      some (.str "git".toList, encodeFields resolution.toFields) :=
    splitTag_encodeFields (by decide : "type".toList ∉ ["repo".toList, "commit".toList]) _
  have htag : identify ["directory".toList, "git".toList] reading (.str "git".toList) =
      some (some "git".toList) := by cases reading <;> rfl
  simp only [decodeTagged, hsplit, htag, Option.bind_eq_bind, Option.bind_some,
    if_neg (by decide : "git".toList ≠ "directory".toList), GitResolution.decode_encode,
    Option.map_some]

theorem LockfileResolution.readsBack {resolution : LockfileResolution I} (h : resolution.Sound) :
    ReadsBack LockfileResolution.decode LockfileResolution.encode resolution where
  decode_encode reading := by
    cases resolution with
    | tarball resolution =>
        simp only [decode, encode, untagged, List.findSome?_cons,
          TarballResolution.decode_encode h, Option.map_some]
    | registry resolution =>
        simp only [decode, encode, untagged, List.findSome?_cons,
          TarballResolution.decode_registry, RegistryResolution.decode_encode (h _ rfl),
          Option.map_some, Option.map_none]
    | directory resolution =>
        simp only [decode, encode, untagged, List.findSome?_cons, decode_tagged_eq_none,
          decodeTagged_directory, Option.map_none]
    | git resolution =>
        simp only [decode, encode, untagged, List.findSome?_cons, decode_tagged_eq_none,
          decodeTagged_git, Option.map_none]
  notNull := by cases resolution <;> rfl

theorem LockfileResolution.sound_of_decode [RoundTripSsri I] {reading : Reading} {d : Document}
    {resolution : LockfileResolution I}
    (h : LockfileResolution.decode reading d = some resolution) : resolution.Sound := by
  obtain ⟨variant, hvariant, hread⟩ := exists_of_untagged h
  simp only [List.mem_cons, List.not_mem_nil, or_false] at hvariant
  rcases hvariant with rfl | rfl | rfl
  · obtain ⟨resolution, hresolution, rfl⟩ := Option.map_eq_some_iff.mp hread
    simp only [TarballResolution.decode, Option.bind_eq_bind, Option.bind_eq_some_iff]
      at hresolution
    obtain ⟨known, -, tarball, -, integrity, hintegrity, hresolution⟩ := hresolution
    cases hresolution
    exact readsBack_of_optionalField faithful_integrity hintegrity
  · obtain ⟨resolution, hresolution, rfl⟩ := Option.map_eq_some_iff.mp hread
    simp only [RegistryResolution.decode, Option.bind_eq_bind, Option.bind_eq_some_iff]
      at hresolution
    obtain ⟨known, -, integrity, hintegrity, hresolution⟩ := hresolution
    cases hresolution
    rintro _ ⟨⟩
    exact readsBack_of_requiredField faithful_integrity hintegrity
  · -- neither tagged resolution has an integrity
    simp only [decodeTagged, Option.bind_eq_bind, Option.bind_eq_some_iff] at hread
    obtain ⟨⟨tag, rest⟩, -, field, -, hread⟩ := hread
    intro integrity hintegrity
    cases field with
    | none => cases hread
    | some name =>
        dsimp only at hread
        split at hread
        · obtain ⟨_, -, rfl⟩ := Option.map_eq_some_iff.mp hread
          cases hintegrity
        · obtain ⟨_, -, rfl⟩ := Option.map_eq_some_iff.mp hread
          cases hintegrity

end Resolution

section Names

variable {V : Type} [NodeSemver V]

theorem PkgName.faithful : Faithful PkgName.decode PkgName.encode :=
  faithful_tryFromStr fun _ _ h => PkgName.parse_display ((PkgName.parse_eq_ok_iff _ _).mp h).1

theorem PkgName.readsBack {s : Text} {name : PkgName} (h : PkgName.parse s = .ok name) :
    ReadsBack PkgName.decode PkgName.encode name :=
  readsBack_tryFromStr (PkgName.parse_display ((PkgName.parse_eq_ok_iff _ _).mp h).1)

/-- A path is read back exactly when its name is specifiable. -/
theorem DependencyPath.readsBack_iff [PlainSemver V] [RoundTripSemver V]
    {path : DependencyPath V} (h : path.Parsed) :
    ReadsBack DependencyPath.decode DependencyPath.encode path ↔
      path.packageSpecifier.name.Specifiable := by
  rw [← DependencyPath.fromStr_display_iff h]
  refine ⟨fun hread => ?_, readsBack_tryFromStr⟩
  obtain ⟨text, htext, hparse⟩ := tryFromStr_eq_some (hread.decode_encode .direct)
  cases htext
  exact hparse

variable [PlainSemver V] [RoundTripSemver V]

theorem PkgVerPeer.readsBack {s : Text} {version : PkgVerPeer V}
    (h : PkgVerPeer.fromStr s = .ok version) :
    ReadsBack PkgVerPeer.decode PkgVerPeer.encode version :=
  readsBack_tryFromStr (PkgVerPeer.fromStr_display h)

theorem PkgVerPeer.faithful : Faithful (PkgVerPeer.decode (V := V)) PkgVerPeer.encode :=
  faithful_tryFromStr fun _ _ h => PkgVerPeer.fromStr_display h

theorem DependencyPath.faithful :
    Faithful (DependencyPath.decode (V := V)) DependencyPath.encode := by
  intro reading d path h
  obtain ⟨text, -, hparse⟩ := tryFromStr_eq_some h
  exact (DependencyPath.readsBack_iff (DependencyPath.fromStr_ok hparse).1).mpr
    (DependencyPath.specifiable_of_fromStr hparse)

theorem PackageSnapshotDependency.readsBack_pkgVerPeer {s : Text} {version : PkgVerPeer V}
    (h : PkgVerPeer.fromStr s = .ok version) :
    ReadsBack PackageSnapshotDependency.decode PackageSnapshotDependency.encode
      (.pkgVerPeer version) where
  decode_encode reading := by
    simp only [decode, encode, untagged, List.findSome?_cons,
      (PkgVerPeer.readsBack h).decode_encode, Option.map_some]
  notNull := rfl

/-- What was read as a path was rejected as a version, and it still is when its
version is written in its canonical form. -/
theorem PackageSnapshotDependency.faithful :
    Faithful (PackageSnapshotDependency.decode (V := V)) PackageSnapshotDependency.encode := by
  intro reading d dependency h
  simp only [PackageSnapshotDependency.decode, untagged, List.findSome?_cons,
    List.findSome?_nil] at h
  cases hversion : PkgVerPeer.decode (V := V) .buffered d with
  | some version =>
      simp only [hversion, Option.map_some, Option.some.injEq] at h
      subst h
      obtain ⟨text, -, hparse⟩ := tryFromStr_eq_some hversion
      exact readsBack_pkgVerPeer hparse
  | none =>
      cases hpath : DependencyPath.decode (V := V) .buffered d with
      | none => simp [hversion, hpath] at h
      | some path =>
          simp only [hversion, hpath, Option.map_some, Option.map_none, Option.some.injEq] at h
          subst h
          obtain ⟨text, htext, hparse⟩ := tryFromStr_eq_some hpath
          obtain ⟨hparsed, suffix, hsuffix, rfl⟩ := DependencyPath.fromStr_ok hparse
          have hrejected : ∀ version : PkgVerPeer V, PkgVerPeer.fromStr path.display ≠
              .ok version := by
            have hslash : '/' ∈ path.customRegistry.getD [] ++
                '/' :: (path.packageSpecifier.name.display ++ ['@']) := by simp
            intro version
            have hnot := PkgVerPeer.fromStr_append_display hslash hsuffix (fun version hok => by
              rw [PkgVerPeer.decode, tryFromStr, htext, Option.bind_some] at hversion
              simp only [List.append_assoc, List.cons_append, List.nil_append] at hok hversion
              rw [hok] at hversion
              cases hversion) version
            simpa only [DependencyPath.display, PkgNameVerPeer.display, PkgNameSuffix.display,
              List.append_assoc, List.cons_append, List.nil_append] using hnot
          refine ⟨fun reading => ?_, rfl⟩
          have hnone : PkgVerPeer.decode (V := V) .buffered path.encode = none := by
            cases hdecode : PkgVerPeer.decode (V := V) .buffered path.encode with
            | none => rfl
            | some version =>
                obtain ⟨text, htext, hparse⟩ := tryFromStr_eq_some hdecode
                cases htext
                exact absurd hparse (hrejected version)
          have hread := (DependencyPath.faithful .buffered d path hpath).decode_encode .buffered
          simp only [decode, encode, untagged, List.findSome?_cons, hnone, hread,
            Option.map_some, Option.map_none]

end Names

section Project

variable {V : Type} [NodeSemver V]

theorem ResolvedDependencySpec.readsBack {spec : ResolvedDependencySpec V}
    (h : ReadsBack PkgVerPeer.decode PkgVerPeer.encode spec.version) :
    ReadsBack ResolvedDependencySpec.decode ResolvedDependencySpec.encode spec where
  decode_encode reading := by
    have hnodup : (spec.toFields.map Prod.fst).Nodup :=
      (by decide : ["specifier".toList, "version".toList].Nodup)
    have hfields : fields ["specifier".toList, "version".toList] true reading
        (encodeFields spec.toFields) = some (present spec.toFields) :=
      fields_encodeFields rfl hnodup true reading
    have hspecifier := requiredField_present hnodup (readsBack_string spec.specifier)
      List.mem_cons_self reading
    have hversion := requiredField_present hnodup h
      (List.mem_cons_of_mem _ List.mem_cons_self) reading
    apply read_next hfields
    apply read_next hspecifier
    apply read_next hversion
    rfl
  notNull := rfl

/-- The names and versions that a dependency map holds are read back. -/
def ResolvedDependencyMap.Sound (dependencies : ResolvedDependencyMap V) : Prop :=
  dependencies.Forall (ReadsBack PkgName.decode PkgName.encode)
    (ReadsBack ResolvedDependencySpec.decode ResolvedDependencySpec.encode)

theorem ResolvedDependencyMap.readsBack {dependencies : ResolvedDependencyMap V}
    (h : dependencies.Sound) :
    ReadsBack ResolvedDependencyMap.decode ResolvedDependencyMap.encode dependencies :=
  readsBack_hashMap h

/-- What a project holds is read back, so the project is. -/
structure ProjectSnapshot.Sound (project : ProjectSnapshot V) : Prop where
  dependencies : ∀ group dependencies, project.getMapByGroup group = some dependencies →
    ResolvedDependencyMap.Sound dependencies
  dependenciesMeta : ∀ d, project.dependenciesMeta = some d → ReadsBack value id d

theorem ProjectSnapshot.nodup_toFields (project : ProjectSnapshot V) :
    (project.toFields.map Prod.fst).Nodup :=
  (by decide : projectFields.Nodup)

theorem ProjectSnapshot.readsBack {project : ProjectSnapshot V} (h : project.Sound) :
    ReadsBack ProjectSnapshot.decode ProjectSnapshot.encode project where
  decode_encode reading := by
    have hnodup := project.nodup_toFields
    have hfields : fields projectFields false reading (encodeFields project.toFields) =
        some (present project.toFields) := fields_encodeFields rfl hnodup false reading
    have hspecifiers := optionalField_present hnodup (fun m _ => readsBack_texts m)
      (List.mem_of_getElem? (i := 0) rfl) reading
    have hdependencies := optionalField_present hnodup
      (fun m hm => ResolvedDependencyMap.readsBack (h.dependencies .prod m hm))
      (List.mem_of_getElem? (i := 1) rfl) reading
    have hoptional := optionalField_present hnodup
      (fun m hm => ResolvedDependencyMap.readsBack (h.dependencies .optional m hm))
      (List.mem_of_getElem? (i := 2) rfl) reading
    have hdev := optionalField_present hnodup
      (fun m hm => ResolvedDependencyMap.readsBack (h.dependencies .dev m hm))
      (List.mem_of_getElem? (i := 3) rfl) reading
    have hmeta := optionalField_present hnodup h.dependenciesMeta
      (List.mem_of_getElem? (i := 4) rfl) reading
    have hpublish := optionalField_present hnodup (fun s _ => readsBack_string s)
      (List.mem_of_getElem? (i := 5) rfl) reading
    apply read_next hfields
    apply read_next hspecifiers
    apply read_next hdependencies
    apply read_next hoptional
    apply read_next hdev
    apply read_next hmeta
    apply read_next hpublish
    rfl
  notNull := rfl

/-- Either form of the root snapshot, with what it holds read back. -/
def RootProjectSnapshot.Sound : RootProjectSnapshot V → Prop
  | .multi snapshot => snapshot.importers.Forall (ReadsBack string Document.str)
      (ReadsBack ProjectSnapshot.decode ProjectSnapshot.encode)
  | .single project => project.Sound

theorem MultiProjectSnapshot.decode_encode {snapshot : MultiProjectSnapshot V}
    (h : (RootProjectSnapshot.multi snapshot).Sound) (reading : Reading) :
    MultiProjectSnapshot.decode reading (encodeFields snapshot.toFields) = some snapshot := by
  have hnodup : (snapshot.toFields.map Prod.fst).Nodup := List.nodup_singleton _
  have hfields : fields [importersField] true reading (encodeFields snapshot.toFields) =
      some (present snapshot.toFields) := fields_encodeFields rfl hnodup true reading
  have himporters := requiredField_present hnodup (readsBack_hashMap h)
    List.mem_cons_self reading
  apply read_next hfields
  apply read_next himporters
  rfl

/-- No field of a project is called `importers`, so the monorepo variant rejects it. -/
theorem MultiProjectSnapshot.decode_project (project : ProjectSnapshot V) :
    MultiProjectSnapshot.decode (V := V) .buffered (encodeFields project.toFields) = none := by
  have hstrings : ∀ e ∈ keyed (present project.toFields),
      ∃ text borrowed, e.1 = .scalar text .string borrowed := by
    intro e he
    obtain ⟨f, -, rfl⟩ := List.mem_map.mp he
    exact ⟨f.1, true, rfl⟩
  cases hdecode : MultiProjectSnapshot.decode (V := V) .buffered
      (encodeFields project.toFields) with
  | none => rfl
  | some snapshot =>
      obtain ⟨borrowed, v, hes, -⟩ :=
        (MultiProjectSnapshot.decode_eq_some_iff hstrings snapshot).mp hdecode
      have hmem : (.scalar importersField .string borrowed, v) ∈
          keyed (present project.toFields) := hes ▸ List.mem_singleton_self _
      obtain ⟨f, hf, heq⟩ := List.mem_map.mp hmem
      have hname : f.1 ∈ projectFields :=
        (List.mem_map.mpr ⟨_, mem_present.mp hf, rfl⟩ : f.1 ∈ project.toFields.map Prod.fst)
      simp only [Document.str, Prod.mk.injEq, Document.scalar.injEq] at heq
      rw [heq.1.1] at hname
      exact absurd hname (by decide)

theorem RootProjectSnapshot.decode_encode {root : RootProjectSnapshot V} (h : root.Sound)
    (reading : Reading) :
    RootProjectSnapshot.decode reading (encodeFields root.toFields) = some root := by
  cases root with
  | multi snapshot =>
      exact RootProjectSnapshot.decode_of_multi (MultiProjectSnapshot.decode_encode h .buffered)
  | single project =>
      have hproject := (ProjectSnapshot.readsBack h).decode_encode .buffered
      rw [RootProjectSnapshot.toFields, RootProjectSnapshot.decode_of_not_multi
        (MultiProjectSnapshot.decode_project project), ← ProjectSnapshot.encode, hproject]
      rfl

variable [PlainSemver V] [RoundTripSemver V]

theorem ResolvedDependencySpec.faithful :
    Faithful (ResolvedDependencySpec.decode (V := V)) ResolvedDependencySpec.encode := by
  intro reading d spec h
  simp only [ResolvedDependencySpec.decode, Option.bind_eq_bind, Option.bind_eq_some_iff] at h
  obtain ⟨known, -, specifier, -, version, hversion, h⟩ := h
  cases h
  exact ResolvedDependencySpec.readsBack
    (readsBack_of_requiredField PkgVerPeer.faithful hversion)

theorem ProjectSnapshot.sound_of_decode {reading : Reading} {d : Document}
    {project : ProjectSnapshot V} (h : ProjectSnapshot.decode reading d = some project) :
    project.Sound := by
  have hmap : ∀ {known name} {dependencies : Option (ResolvedDependencyMap V)},
      optionalField ResolvedDependencyMap.decode reading known name = some dependencies →
      ∀ m, dependencies = some m → ResolvedDependencyMap.Sound m := by
    rintro known name dependencies hread m rfl
    obtain ⟨d, -, hd⟩ := exists_of_optionalField hread
    exact forall_hashMap PkgName.faithful ResolvedDependencySpec.faithful hd
  simp only [ProjectSnapshot.decode, Option.bind_eq_bind, Option.bind_eq_some_iff] at h
  obtain ⟨known, -, specifiers, -, dependencies, hdependencies, optionalDependencies, hoptional,
    devDependencies, hdev, dependenciesMeta, hmeta, publishDirectory, -, h⟩ := h
  cases h
  refine ⟨fun group m hm => ?_, readsBack_value_of_optionalField hmeta⟩
  cases group with
  | prod => exact hmap hdependencies m hm
  | dev => exact hmap hdev m hm
  | optional => exact hmap hoptional m hm
  | peer => cases hm

theorem ProjectSnapshot.faithful :
    Faithful (ProjectSnapshot.decode (V := V)) ProjectSnapshot.encode :=
  fun _ _ _ h => ProjectSnapshot.readsBack (ProjectSnapshot.sound_of_decode h)

theorem RootProjectSnapshot.sound_of_decode {reading : Reading} {d : Document}
    {root : RootProjectSnapshot V} (h : RootProjectSnapshot.decode reading d = some root) :
    root.Sound := by
  obtain ⟨variant, hvariant, hread⟩ := exists_of_untagged h
  simp only [List.mem_cons, List.not_mem_nil, or_false] at hvariant
  rcases hvariant with rfl | rfl
  · obtain ⟨snapshot, hsnapshot, rfl⟩ := Option.map_eq_some_iff.mp hread
    simp only [MultiProjectSnapshot.decode, Option.bind_eq_bind, Option.bind_eq_some_iff]
      at hsnapshot
    obtain ⟨known, -, importers, himporters, hsnapshot⟩ := hsnapshot
    cases hsnapshot
    obtain ⟨d, -, hd⟩ := Option.bind_eq_some_iff.mp himporters
    exact forall_hashMap (fun _ _ name _ => readsBack_string name) ProjectSnapshot.faithful hd
  · obtain ⟨project, hproject, rfl⟩ := Option.map_eq_some_iff.mp hread
    exact ProjectSnapshot.sound_of_decode hproject

end Project

section Package

variable {V I : Type} [NodeSemver V] [SsriParse I] [SsriDisplay I]

theorem LockfilePeerDependencyMetaValue.readsBack (peer : LockfilePeerDependencyMetaValue) :
    ReadsBack LockfilePeerDependencyMetaValue.decode LockfilePeerDependencyMetaValue.encode
      peer where
  decode_encode reading := by
    have hnodup : (peer.toFields.map Prod.fst).Nodup := List.nodup_singleton _
    have hfields : fields ["optional".toList] false reading (encodeFields peer.toFields) =
        some (present peer.toFields) := fields_encodeFields rfl hnodup false reading
    have hoptional := requiredField_present hnodup (readsBack_boolean peer.optional)
      List.mem_cons_self reading
    apply read_next hfields
    apply read_next hoptional
    rfl
  notNull := rfl

/-- What a package snapshot holds is read back: only its resolution and its
dependencies hold more than texts and flags. -/
structure PackageSnapshot.Sound (snapshot : PackageSnapshot V I) : Prop where
  resolution : snapshot.resolution.Sound
  dependencies : ∀ dependencies, snapshot.dependencies = some dependencies →
    dependencies.Forall (ReadsBack PkgName.decode PkgName.encode)
      (ReadsBack PackageSnapshotDependency.decode PackageSnapshotDependency.encode)

theorem PackageSnapshot.readsBack {snapshot : PackageSnapshot V I} (h : snapshot.Sound) :
    ReadsBack PackageSnapshot.decode PackageSnapshot.encode snapshot where
  decode_encode reading := by
    have hnodup : (snapshot.toFields.map Prod.fst).Nodup := (by decide : packageFields.Nodup)
    have hfields : fields packageFields false reading (encodeFields snapshot.toFields) =
        some (present snapshot.toFields) := fields_encodeFields rfl hnodup false reading
    have htext {a : Option Text} {name : Text}
        (hmem : (name, a.map Document.str) ∈ snapshot.toFields) :=
      optionalField_present hnodup (fun s _ => readsBack_string s) hmem reading
    have hlist {a : Option (List Text)} {name : Text}
        (hmem : (name, a.map (encodeList Document.str)) ∈ snapshot.toFields) :=
      optionalField_present hnodup (fun l _ => readsBack_strings l) hmem reading
    have hmap {a : Option (KeyedMap Text Text)} {name : Text}
        (hmem : (name, a.map (encodeMap Document.str Document.str)) ∈ snapshot.toFields) :=
      optionalField_present hnodup (fun m _ => readsBack_texts m) hmem reading
    have hflag {a : Option Bool} {name : Text}
        (hmem : (name, a.map encodeBoolean) ∈ snapshot.toFields) :=
      optionalField_present hnodup (fun b _ => readsBack_boolean b) hmem reading
    have hnullable {a : Option Bool} {name : Text}
        (hmem : (name, some (encodeOption encodeBoolean a)) ∈ snapshot.toFields) :=
      optionalField_present_null hnodup (fun b _ => readsBack_boolean b) hmem reading
    have hresolution := requiredField_present hnodup (LockfileResolution.readsBack h.resolution)
      (List.mem_of_getElem? (i := 0) rfl) reading
    have hpeersMeta := optionalField_present hnodup
      (fun m _ => readsBack_hashMap fun e _ =>
        ⟨readsBack_string e.1, LockfilePeerDependencyMetaValue.readsBack e.2⟩)
      (List.mem_of_getElem? (i := 14) rfl) reading
    have hdependencies := optionalField_present hnodup
      (fun m hm => readsBack_hashMap (h.dependencies m hm))
      (List.mem_of_getElem? (i := 15) rfl) reading
    have htransitive := optionalField_present_null hnodup (fun l _ => readsBack_strings l)
      (List.mem_of_getElem? (i := 17) rfl) reading
    apply read_next hfields
    apply read_next hresolution
    apply read_next (htext (List.mem_of_getElem? (i := 1) rfl))
    apply read_next (htext (List.mem_of_getElem? (i := 2) rfl))
    apply read_next (htext (List.mem_of_getElem? (i := 3) rfl))
    apply read_next (hmap (List.mem_of_getElem? (i := 4) rfl))
    apply read_next (hlist (List.mem_of_getElem? (i := 5) rfl))
    apply read_next (hlist (List.mem_of_getElem? (i := 6) rfl))
    apply read_next (hlist (List.mem_of_getElem? (i := 7) rfl))
    apply read_next (htext (List.mem_of_getElem? (i := 8) rfl))
    apply read_next (hflag (List.mem_of_getElem? (i := 9) rfl))
    apply read_next (hflag (List.mem_of_getElem? (i := 10) rfl))
    apply read_next (hflag (List.mem_of_getElem? (i := 11) rfl))
    apply read_next (hlist (List.mem_of_getElem? (i := 12) rfl))
    apply read_next (hmap (List.mem_of_getElem? (i := 13) rfl))
    apply read_next hpeersMeta
    apply read_next hdependencies
    apply read_next (hmap (List.mem_of_getElem? (i := 16) rfl))
    apply read_next htransitive
    apply read_next (hnullable (List.mem_of_getElem? (i := 18) rfl))
    apply read_next (hnullable (List.mem_of_getElem? (i := 19) rfl))
    rfl
  notNull := rfl

variable [PlainSemver V] [RoundTripSemver V] [RoundTripSsri I]

theorem PackageSnapshot.sound_of_decode {reading : Reading} {d : Document}
    {snapshot : PackageSnapshot V I} (h : PackageSnapshot.decode reading d = some snapshot) :
    snapshot.Sound := by
  obtain ⟨known, -, h⟩ := Option.bind_eq_some_iff.mp h
  obtain ⟨resolution, hresolution, h⟩ := Option.bind_eq_some_iff.mp h
  -- the fields from `id` to `peerDependenciesMeta`
  obtain ⟨_, -, h⟩ := Option.bind_eq_some_iff.mp h
  obtain ⟨_, -, h⟩ := Option.bind_eq_some_iff.mp h
  obtain ⟨_, -, h⟩ := Option.bind_eq_some_iff.mp h
  obtain ⟨_, -, h⟩ := Option.bind_eq_some_iff.mp h
  obtain ⟨_, -, h⟩ := Option.bind_eq_some_iff.mp h
  obtain ⟨_, -, h⟩ := Option.bind_eq_some_iff.mp h
  obtain ⟨_, -, h⟩ := Option.bind_eq_some_iff.mp h
  obtain ⟨_, -, h⟩ := Option.bind_eq_some_iff.mp h
  obtain ⟨_, -, h⟩ := Option.bind_eq_some_iff.mp h
  obtain ⟨_, -, h⟩ := Option.bind_eq_some_iff.mp h
  obtain ⟨_, -, h⟩ := Option.bind_eq_some_iff.mp h
  obtain ⟨_, -, h⟩ := Option.bind_eq_some_iff.mp h
  obtain ⟨_, -, h⟩ := Option.bind_eq_some_iff.mp h
  obtain ⟨_, -, h⟩ := Option.bind_eq_some_iff.mp h
  obtain ⟨dependencies, hdependencies, h⟩ := Option.bind_eq_some_iff.mp h
  obtain ⟨_, -, h⟩ := Option.bind_eq_some_iff.mp h
  obtain ⟨_, -, h⟩ := Option.bind_eq_some_iff.mp h
  obtain ⟨_, -, h⟩ := Option.bind_eq_some_iff.mp h
  obtain ⟨_, -, h⟩ := Option.bind_eq_some_iff.mp h
  cases h
  constructor
  · obtain ⟨d, -, hd⟩ := Option.bind_eq_some_iff.mp hresolution
    exact LockfileResolution.sound_of_decode hd
  · rintro m rfl
    obtain ⟨d, -, hd⟩ := exists_of_optionalField hdependencies
    exact forall_hashMap PkgName.faithful PackageSnapshotDependency.faithful hd

end Package

section Lockfile

variable {V I : Type} [NodeSemver V] [BEq V] [SsriParse I] [SsriDisplay I]

theorem LockfileSettings.readsBack (settings : LockfileSettings) :
    ReadsBack LockfileSettings.decode LockfileSettings.encode settings where
  decode_encode reading := by
    have hnodup : (settings.toFields.map Prod.fst).Nodup :=
      (by decide : ["autoInstallPeers".toList, "excludeLinksFromLockfile".toList].Nodup)
    have hfields : fields ["autoInstallPeers".toList, "excludeLinksFromLockfile".toList] false
        reading (encodeFields settings.toFields) = some (present settings.toFields) :=
      fields_encodeFields rfl hnodup false reading
    have hpeers := requiredField_present hnodup (readsBack_boolean settings.autoInstallPeers)
      List.mem_cons_self reading
    have hlinks := requiredField_present hnodup
      (readsBack_boolean settings.excludeLinksFromLockfile)
      (List.mem_cons_of_mem _ List.mem_cons_self) reading
    apply read_next hfields
    apply read_next hpeers
    apply read_next hlinks
    rfl
  notNull := rfl

/-- What the lockfile holds is read back, but for the keys of its packages. -/
structure Lockfile.Sound (lockfile : Lockfile V I) : Prop where
  minor : lockfile.lockfileVersion.comver.minor < 2 ^ 16
  projectSnapshot : lockfile.projectSnapshot.Sound
  packages : ∀ packages, lockfile.packages = some packages →
    packages.Forall DependencyPath.Parsed PackageSnapshot.Sound

omit [SsriParse I] in
/-- The fields of the lockfile and of its project have different names. -/
theorem Lockfile.nodup_toFields (lockfile : Lockfile V I) :
    (lockfile.toFields.map Prod.fst).Nodup := by
  rw [Lockfile.toFields]
  cases lockfile.projectSnapshot with
  | multi snapshot =>
      exact (by decide : ["lockfileVersion".toList, "settings".toList,
        "neverBuiltDependencies".toList, "overrides".toList, importersField,
        "packages".toList].Nodup)
  | single project =>
      exact (by decide : (["lockfileVersion".toList, "settings".toList,
        "neverBuiltDependencies".toList, "overrides".toList] ++ projectFields ++
        ["packages".toList]).Nodup)

omit [SsriParse I] in
/-- The fields that the lockfile claims, and those that are left for its project. -/
theorem Lockfile.filter_toFields (lockfile : Lockfile V I) :
    ((present lockfile.toFields).filter fun f => f.1 ∈ claimedFields) =
        present (lockfile.leadingFields ++ lockfile.packagesFields) ∧
      ((present lockfile.toFields).filter fun f => f.1 ∉ claimedFields) =
        present lockfile.projectSnapshot.toFields := by
  have hleading : ∀ name ∈ lockfile.leadingFields.map Prod.fst, name ∈ claimedFields :=
    (by decide : ∀ name ∈ ["lockfileVersion".toList, "settings".toList,
      "neverBuiltDependencies".toList, "overrides".toList], name ∈ claimedFields)
  have hpackages : ∀ name ∈ lockfile.packagesFields.map Prod.fst, name ∈ claimedFields :=
    (by decide : ∀ name ∈ ["packages".toList], name ∈ claimedFields)
  have hproject : ∀ name ∈ lockfile.projectSnapshot.toFields.map Prod.fst,
      name ∉ claimedFields := by
    cases lockfile.projectSnapshot with
    | multi snapshot =>
        exact (by decide : ∀ name ∈ [importersField], name ∉ claimedFields)
    | single project =>
        exact (by decide : ∀ name ∈ projectFields, name ∉ claimedFields)
  rw [Lockfile.toFields, present_append, present_append, present_append]
  constructor
  · rw [List.filter_append, List.filter_append, (filter_present_of_mem hleading).1,
      (filter_present_of_not_mem hproject).1, (filter_present_of_mem hpackages).1,
      List.append_nil]
  · rw [List.filter_append, List.filter_append, (filter_present_of_mem hleading).2,
      (filter_present_of_not_mem hproject).2, (filter_present_of_mem hpackages).2,
      List.nil_append, List.append_nil]

theorem Lockfile.deserialize_serialize {lockfile : Lockfile V I} (h : lockfile.Sound)
    (hkeys : ∀ packages, lockfile.packages = some packages →
      packages.Forall (ReadsBack DependencyPath.decode DependencyPath.encode)
        PackageSnapshot.Sound) :
    Lockfile.deserialize lockfile.serialize = some lockfile := by
  obtain ⟨hclaimed, hproject⟩ := lockfile.filter_toFields
  have hpresent : ((present lockfile.toFields).map Prod.fst).Nodup :=
    (map_fst_present_sublist _).nodup lockfile.nodup_toFields
  have hnodup : ((lockfile.leadingFields ++ lockfile.packagesFields).map Prod.fst).Nodup :=
    (by decide : claimedFields.Nodup)
  have hknown : mapFields claimedFields false .direct (keyed (present lockfile.toFields)) =
      some (present (lockfile.leadingFields ++ lockfile.packagesFields)) := by
    rw [mapFields_keyed hpresent (fun h => by cases h), hclaimed]
  have hversion := requiredField_present hnodup (LockfileVersion.readsBack (by decide) h.minor)
    (List.mem_of_getElem? (i := 0) rfl) .direct
  have hsettings := optionalField_present hnodup (fun s _ => LockfileSettings.readsBack s)
    (List.mem_of_getElem? (i := 1) rfl) .direct
  have hneverBuilt := optionalField_present hnodup (fun l _ => readsBack_strings l)
    (List.mem_of_getElem? (i := 2) rfl) .direct
  have hoverrides := optionalField_present hnodup (fun m _ => readsBack_texts m)
    (List.mem_of_getElem? (i := 3) rfl) .direct
  have hpackages := optionalField_present hnodup
    (fun m hm => readsBack_hashMap fun e he =>
      ⟨(hkeys m hm e he).1, PackageSnapshot.readsBack (hkeys m hm e he).2⟩)
    (List.mem_of_getElem? (i := 4) rfl) .direct
  refine (Lockfile.deserialize_eq_some_iff _ lockfile).mpr ⟨?_, ?_⟩
  · apply read_next hknown
    apply read_next hversion
    apply read_next hsettings
    apply read_next hneverBuilt
    apply read_next hoverrides
    apply read_next hpackages
    rfl
  · rw [otherEntries_keyed, hproject]
    exact RootProjectSnapshot.decode_encode h.projectSnapshot .buffered

omit [SsriDisplay I] in
/-- What is read of the claimed fields. -/
theorem ClaimedFields.decode_ok {top : List (Document × Document)} {claimed : ClaimedFields V I}
    (h : ClaimedFields.decode top = some claimed) :
    ∃ known, requiredField (LockfileVersion.decode 6) .direct known "lockfileVersion".toList =
        some claimed.lockfileVersion ∧
      optionalField (hashMap DependencyPath.decode PackageSnapshot.decode) .direct known
        "packages".toList = some claimed.packages := by
  simp only [ClaimedFields.decode, Option.bind_eq_bind, Option.bind_eq_some_iff] at h
  obtain ⟨known, -, version, hversion, _, -, _, -, _, -, packages, hpackages, h⟩ := h
  cases h
  exact ⟨known, hversion, hpackages⟩

omit [SsriDisplay I] in
/-- The keys of a lockfile that was read have specifiable names. -/
theorem Lockfile.specifiable_of_deserialize {content : Document} {lockfile : Lockfile V I}
    (h : Lockfile.deserialize content = some lockfile) :
    ∀ e ∈ lockfile.packageEntries, e.1.packageSpecifier.name.Specifiable := by
  cases content with
  | scalar => cases h
  | seq => cases h
  | map top =>
      obtain ⟨known, -, hpackages⟩ :=
        ClaimedFields.decode_ok ((Lockfile.deserialize_eq_some_iff top lockfile).mp h).1
      intro e he
      unfold Lockfile.packageEntries at he
      cases hm : lockfile.packages with
      | none => simp [hm] at he
      | some packages =>
          rw [hm] at he hpackages
          obtain ⟨d, -, hd⟩ := exists_of_optionalField hpackages
          have hforall : packages.Forall (fun path => path.packageSpecifier.name.Specifiable)
              fun _ => True :=
            forall_hashMap (fun _ _ _ hkey => by
              obtain ⟨text, -, hparse⟩ := tryFromStr_eq_some hkey
              exact DependencyPath.specifiable_of_fromStr hparse) (fun _ _ _ _ => trivial) hd
          exact (hforall e he).1

theorem Lockfile.sound_of_deserialize [PlainSemver V] [RoundTripSemver V] [RoundTripSsri I]
    {content : Document} {lockfile : Lockfile V I}
    (h : Lockfile.deserialize content = some lockfile) : lockfile.Sound := by
  cases content with
  | scalar => cases h
  | seq => cases h
  | map top =>
      obtain ⟨hclaimed, hproject⟩ := (Lockfile.deserialize_eq_some_iff top lockfile).mp h
      obtain ⟨known, hversion, hpackages⟩ := ClaimedFields.decode_ok hclaimed
      refine ⟨?_, RootProjectSnapshot.sound_of_decode hproject, ?_⟩
      · obtain ⟨d, -, hd⟩ := Option.bind_eq_some_iff.mp hversion
        obtain ⟨comver, hcomver, hversion⟩ := Option.bind_eq_some_iff.mp hd
        obtain ⟨text, -, hparse⟩ := tryFromStr_eq_some hcomver
        unfold LockfileVersion.tryFrom at hversion
        split at hversion
        · have hlockfile : comver = lockfile.lockfileVersion.comver :=
            congrArg LockfileVersion.comver (Option.some.inj hversion)
          exact hlockfile ▸ (ComVer.fromStr_ok hparse).2
        · cases hversion
      · intro packages hm
        rw [show lockfile.packages = some packages from hm] at hpackages
        obtain ⟨d, -, hd⟩ := exists_of_optionalField hpackages
        exact forall_hashMap (fun _ _ _ hkey => by
          obtain ⟨text, -, hparse⟩ := tryFromStr_eq_some hkey
          exact (DependencyPath.fromStr_ok hparse).1)
          (fun _ _ _ hvalue => PackageSnapshot.sound_of_decode hvalue) hd

theorem Lockfile.load_serialize (lockfile : Lockfile V I) :
    Lockfile.load lockfile.serialize =
      (Lockfile.deserialize (V := V) (I := I) lockfile.serialize).map some := rfl

/-- A lockfile is loaded again as it was saved exactly when the names in its keys
are specifiable. -/
theorem Lockfile.load_serialize_eq_iff [PlainSemver V] [RoundTripSemver V]
    {lockfile : Lockfile V I} (h : lockfile.Sound) :
    Lockfile.load lockfile.serialize = some (some lockfile) ↔
      ∀ e ∈ lockfile.packageEntries, e.1.packageSpecifier.name.Specifiable := by
  rw [Lockfile.load_serialize]
  constructor
  · intro hload
    obtain ⟨lockfile', hread, heq⟩ := Option.map_eq_some_iff.mp hload
    cases heq
    exact Lockfile.specifiable_of_deserialize hread
  · intro hnames
    rw [Lockfile.deserialize_serialize h, Option.map_some]
    intro packages hpackages e he
    obtain ⟨hparsed, hsound⟩ := h.packages packages hpackages e he
    refine ⟨(DependencyPath.readsBack_iff hparsed).mpr (hnames e ?_), hsound⟩
    rw [Lockfile.packageEntries, hpackages]
    exact he

/-- A value that `Lockfile::load_from_dir` can return. -/
def Lockfile.Loaded (lockfile : Lockfile V I) : Prop :=
  ∃ content, Lockfile.load content = some (some lockfile)

omit [SsriDisplay I] in
theorem Lockfile.Loaded.exists_deserialize {lockfile : Lockfile V I} (h : lockfile.Loaded) :
    ∃ content, Lockfile.deserialize content = some lockfile := by
  obtain ⟨content, hload⟩ := h
  exact ⟨content, option_eq_some_some hload⟩

end Lockfile

end Npnpm
