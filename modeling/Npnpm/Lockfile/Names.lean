import Npnpm.Library.Text

/-!
# Package names and dependency paths

The texts that key a lockfile: `@scope/bare`, `{version}({peers})`,
`{name}@{suffix}` and `{registry}/{name}@{version}({peers})`. The version part
is read by `node_semver`, which is a parameter. Its `==` ignores build
metadata, so it is kept apart from equality throughout.

## Implementation notes

`parse` functions follow the branches of the source one by one. What a caller
may rely on is collected afterwards: the shape of the accepted text and the
shape of the value read from it.
-/

namespace Npnpm

open Npnpm.Text

/-- What the lockfile uses of `node_semver::Version`: reading, with the text of
the error, and writing. -/
class NodeSemver (V : Type) where
  parse : Text → Except Text V
  display : V → Text

/-- The characters of a displayed version: none of the separators of a lockfile
key, and not the underscore that stands for a parenthesis in directory names. -/
class PlainSemver (V : Type) [NodeSemver V] : Prop where
  plain : ∀ (v : V) (c : Char), c ∈ NodeSemver.display v →
    c ≠ '(' ∧ c ≠ ')' ∧ c ≠ '/' ∧ c ≠ '@' ∧ c ≠ '_'

section PkgName

/-- `{bare}`, or `@{scope}/{bare}` with the scope kept without its `@`. -/
structure PkgName where
  scope : Option Text
  bare : Text
deriving DecidableEq

inductive ParsePkgNameError
  | missingName
  | emptyName
deriving DecidableEq

def ParsePkgNameError.display : ParsePkgNameError → Text
  | .missingName => "Missing bare name".toList
  | .emptyName => "Name is empty".toList

def PkgName.parse : Text → Except ParsePkgNameError PkgName
  | [] => .error .emptyName
  | x :: rest =>
      if x = '@' then
        match splitOnce '/' rest with
        | none => .error .missingName
        | some (scope, bare) => .ok ⟨some scope, bare⟩
      else .ok ⟨none, x :: rest⟩

def PkgName.display (name : PkgName) : Text :=
  match name.scope with
  | some scope => '@' :: scope ++ '/' :: name.bare
  | none => name.bare

/-- The names `PkgName.parse` can return. -/
def PkgName.WellFormed (name : PkgName) : Prop :=
  match name.scope with
  | some scope => '/' ∉ scope
  | none => ∃ x rest, name.bare = x :: rest ∧ x ≠ '@'

theorem PkgName.parse_eq_ok_iff (s : Text) (name : PkgName) :
    PkgName.parse s = .ok name ↔ name.WellFormed ∧ name.display = s := by
  obtain ⟨scope, bare⟩ := name
  cases s with
  | nil => cases scope <;> simp [parse, WellFormed, display]; grind
  | cons x rest =>
      by_cases hx : x = '@'
      · subst hx
        cases hsplit : splitOnce '/' rest with
        | none =>
            have hno := (splitOnce_eq_none_iff '/' rest).mp hsplit
            cases scope <;> simp [parse, hsplit, WellFormed, display] <;> grind
        | some p =>
            obtain ⟨scope', bare'⟩ := p
            obtain ⟨hs, hrest⟩ := (splitOnce_eq_some_iff '/' rest scope' bare').mp hsplit
            cases scope with
            | none => simp [parse, hsplit, WellFormed, display]; grind
            | some scope =>
                simp only [parse, if_true, hsplit, Except.ok.injEq, PkgName.mk.injEq,
                  Option.some.injEq, WellFormed, display, List.cons_append, List.cons.injEq,
                  true_and]
                constructor
                · rintro ⟨rfl, rfl⟩
                  exact ⟨hs, hrest.symm⟩
                · rintro ⟨hw, heq⟩
                  exact (append_cons_inj hs hw).mp (hrest.symm.trans heq.symm)
      · cases scope <;> simp [parse, hx, WellFormed, display] <;> grind

/-- No `@` but the one that marks the scope. -/
def PkgName.NoAt (name : PkgName) : Prop :=
  '@' ∉ name.bare ∧ ∀ scope, name.scope = some scope → '@' ∉ scope

end PkgName

section PkgVerPeer

variable {V : Type} [NodeSemver V]

/-- `{version}({peers})`; the peer part is kept with its parentheses. -/
structure PkgVerPeer (V : Type) where
  version : V
  peer : Text
deriving DecidableEq

instance [BEq V] : BEq (PkgVerPeer V) where
  beq a b := a.version == b.version && a.peer == b.peer

instance [BEq V] [ReflBEq V] : ReflBEq (PkgVerPeer V) where
  rfl {a} := by
    change (a.version == a.version && a.peer == a.peer) = true
    simp

omit [NodeSemver V] in
theorem PkgVerPeer.beq_iff [BEq V] (a b : PkgVerPeer V) :
    (a == b) = true ↔ (a.version == b.version) = true ∧ a.peer = b.peer := by
  change (a.version == b.version && a.peer == b.peer) = true ↔ _
  simp

instance [BEq V] [EquivBEq V] : EquivBEq (PkgVerPeer V) where
  symm {a b} h := by
    rw [PkgVerPeer.beq_iff] at h ⊢
    exact ⟨BEq.symm h.1, h.2.symm⟩
  trans {a b c} h h' := by
    rw [PkgVerPeer.beq_iff] at h h' ⊢
    exact ⟨BEq.trans h.1 h'.1, h.2.trans h'.2⟩

inductive ParsePkgVerPeerError
  | parseVersionFailure (error : Text)
  | mismatchParenthesis
deriving DecidableEq

def ParsePkgVerPeerError.display : ParsePkgVerPeerError → Text
  | .parseVersionFailure error => "Failed to parse the version part: ".toList ++ error
  | .mismatchParenthesis => "Mismatch parenthesis".toList

def PkgVerPeer.fromStr (value : Text) : Except ParsePkgVerPeerError (PkgVerPeer V) :=
  if value.getLast? ≠ some ')' then
    if value.any fun c => c = '(' || c = ')' then
      .error .mismatchParenthesis
    else
      match NodeSemver.parse value with
      | .error e => .error (.parseVersionFailure e)
      | .ok version => .ok ⟨version, []⟩
  else
    match breakAt '(' value with
    | none => .error .mismatchParenthesis
    | some (head, peer) =>
        match NodeSemver.parse head with
        | .error e => .error (.parseVersionFailure e)
        | .ok version => .ok ⟨version, peer⟩

def PkgVerPeer.display (value : PkgVerPeer V) : Text :=
  NodeSemver.display value.version ++ value.peer

/-- An accepted text is a version text followed by the peer part, which is
empty or starts at the first opening parenthesis. -/
theorem PkgVerPeer.fromStr_ok {value : Text} {v : PkgVerPeer V}
    (h : PkgVerPeer.fromStr value = .ok v) :
    ∃ head, NodeSemver.parse head = .ok v.version ∧ value = head ++ v.peer ∧
      '(' ∉ head ∧ (v.peer = [] ∨ ∃ rest, v.peer = '(' :: rest) := by
  unfold PkgVerPeer.fromStr at h
  split at h
  · split at h
    · cases h
    · rename_i hany
      cases hp : NodeSemver.parse (V := V) value with
      | error e => simp [hp] at h
      | ok version =>
          simp only [hp, Except.ok.injEq] at h
          subst h
          refine ⟨value, hp, by simp, ?_, Or.inl rfl⟩
          intro hmem
          exact hany (List.any_eq_true.mpr ⟨'(', hmem, by simp⟩)
  · cases hb : breakAt '(' value with
    | none => simp [hb] at h
    | some p =>
        obtain ⟨head, peer⟩ := p
        cases hp : NodeSemver.parse (V := V) head with
        | error e => simp [hb, hp] at h
        | ok version =>
            simp only [hb, hp, Except.ok.injEq] at h
            subst h
            obtain ⟨hno, rest, hpeer, hvalue⟩ := (breakAt_eq_some_iff '(' value head peer).mp hb
            exact ⟨head, hp, by rw [hvalue, hpeer], hno, Or.inr ⟨rest, hpeer⟩⟩

end PkgVerPeer

section PkgNameSuffix

variable {S E : Type}

/-- `{name}@{suffix}` -/
structure PkgNameSuffix (S : Type) where
  name : PkgName
  suffix : S
deriving DecidableEq

instance [BEq S] : BEq (PkgNameSuffix S) where
  beq a b := a.name == b.name && a.suffix == b.suffix

instance [BEq S] [ReflBEq S] : ReflBEq (PkgNameSuffix S) where
  rfl {a} := by
    change (a.name == a.name && a.suffix == a.suffix) = true
    simp

theorem PkgNameSuffix.beq_iff [BEq S] (a b : PkgNameSuffix S) :
    (a == b) = true ↔ a.name = b.name ∧ (a.suffix == b.suffix) = true := by
  change (a.name == b.name && a.suffix == b.suffix) = true ↔ _
  simp

instance [BEq S] [EquivBEq S] : EquivBEq (PkgNameSuffix S) where
  symm {a b} h := by
    rw [PkgNameSuffix.beq_iff] at h ⊢
    exact ⟨h.1.symm, BEq.symm h.2⟩
  trans {a b c} h h' := by
    rw [PkgNameSuffix.beq_iff] at h h' ⊢
    exact ⟨h.1.trans h'.1, BEq.trans h.2 h'.2⟩

inductive ParsePkgNameSuffixError (E : Type)
  | emptyInput
  | missingSuffix
  | emptyName
  | parseSuffixFailure (error : E)
  | parseNameFailure (error : ParsePkgNameError)
deriving DecidableEq

def ParsePkgNameSuffixError.display (displaySuffixError : E → Text) :
    ParsePkgNameSuffixError E → Text
  | .emptyInput => "Input is empty".toList
  | .missingSuffix => "Suffix is missing".toList
  | .emptyName => "Name is empty".toList
  | .parseSuffixFailure error =>
      "Failed to parse suffix: ".toList ++ displaySuffixError error
  | .parseNameFailure error => "Failed to parse name: ".toList ++ error.display

/-- The text before and after the `@` that ends the name. An `@` at the start
belongs to the name. -/
def PkgNameSuffix.splitName : Text → Except (ParsePkgNameSuffixError E) (Text × Text)
  | [] => .error .emptyInput
  | x :: rest =>
      if x = '@' then
        match splitOnce '@' rest with
        | none => .error .missingSuffix
        | some (nameWithoutAt, suffix) => .ok ('@' :: nameWithoutAt, suffix)
      else
        match splitOnce '@' (x :: rest) with
        | none => .error .missingSuffix
        | some p => .ok p

def PkgNameSuffix.fromStr (parseSuffix : Text → Except E S) (value : Text) :
    Except (ParsePkgNameSuffixError E) (PkgNameSuffix S) :=
  match PkgNameSuffix.splitName value with
  | .error e => .error e
  | .ok (name, suffix) =>
      if name = [] ∨ name = ['@'] ∨ name = ['@', '/'] then .error .emptyName
      else if suffix = [] then .error .missingSuffix
      else
        match parseSuffix suffix with
        | .error e => .error (.parseSuffixFailure e)
        | .ok suffix =>
            match PkgName.parse name with
            | .error e => .error (.parseNameFailure e)
            | .ok name => .ok ⟨name, suffix⟩

def PkgNameSuffix.display (displaySuffix : S → Text) (value : PkgNameSuffix S) : Text :=
  value.name.display ++ '@' :: displaySuffix value.suffix

theorem PkgNameSuffix.splitName_ok {value name suffix : Text}
    (h : PkgNameSuffix.splitName (E := E) value = .ok (name, suffix)) :
    value = name ++ '@' :: suffix ∧
      ((∃ n, name = '@' :: n ∧ '@' ∉ n) ∨ '@' ∉ name) := by
  cases value with
  | nil => simp [splitName] at h
  | cons x rest =>
      by_cases hx : x = '@'
      · cases hs : splitOnce '@' rest with
        | none => simp [splitName, hx, hs] at h
        | some p =>
            obtain ⟨n, s⟩ := p
            simp only [splitName, if_pos hx, hs, Except.ok.injEq, Prod.mk.injEq] at h
            obtain ⟨rfl, rfl⟩ := h
            obtain ⟨hno, hrest⟩ := (splitOnce_eq_some_iff '@' rest n s).mp hs
            exact ⟨by rw [hx, hrest]; rfl, Or.inl ⟨n, rfl, hno⟩⟩
      · cases hs : splitOnce '@' (x :: rest) with
        | none => simp [splitName, hx, hs] at h
        | some p =>
            obtain ⟨n, s⟩ := p
            simp only [splitName, if_neg hx, hs, Except.ok.injEq, Prod.mk.injEq] at h
            obtain ⟨rfl, rfl⟩ := h
            obtain ⟨hno, hrest⟩ := (splitOnce_eq_some_iff '@' (x :: rest) n s).mp hs
            exact ⟨hrest, Or.inr hno⟩

/-- A displayed name whose text has no second `@` has none in its parts. -/
theorem PkgName.noAt_of_display {name : PkgName} (hw : name.WellFormed)
    (h : (∃ n, name.display = '@' :: n ∧ '@' ∉ n) ∨ '@' ∉ name.display) : name.NoAt := by
  obtain ⟨scope, bare⟩ := name
  cases scope with
  | none =>
      obtain ⟨x, rest, hbare, hx⟩ := hw
      simp only at hbare
      rcases h with ⟨n, hn, hno⟩ | hno
      · simp only [display, hbare, List.cons.injEq] at hn
        exact absurd hn.1 hx
      · exact ⟨by simpa [display] using hno, by simp⟩
  | some scope =>
      have hno : '@' ∉ scope ++ '/' :: bare := by
        rcases h with ⟨n, hn, hno⟩ | hno
        · simp only [display, List.cons_append, List.cons.injEq, true_and] at hn
          rwa [hn]
        · simp [display] at hno
      simp only [List.mem_append, List.mem_cons, not_or] at hno
      refine ⟨hno.2.2, ?_⟩
      intro s hs
      simp only [Option.some.injEq] at hs
      exact hs ▸ hno.1

/-- An accepted text is the displayed name, an `@` and an accepted suffix. -/
theorem PkgNameSuffix.fromStr_ok {parseSuffix : Text → Except E S} {value : Text}
    {v : PkgNameSuffix S} (h : PkgNameSuffix.fromStr parseSuffix value = .ok v) :
    ∃ suffix, parseSuffix suffix = .ok v.suffix ∧
      value = v.name.display ++ '@' :: suffix ∧ v.name.WellFormed ∧ v.name.NoAt := by
  unfold PkgNameSuffix.fromStr at h
  cases hs : PkgNameSuffix.splitName (E := E) value with
  | error e => simp [hs] at h
  | ok p =>
      obtain ⟨name, suffix⟩ := p
      simp only [hs] at h
      split at h
      · cases h
      · split at h
        · cases h
        · cases hp : parseSuffix suffix with
          | error e => simp [hp] at h
          | ok s =>
              cases hn : PkgName.parse name with
              | error e => simp [hp, hn] at h
              | ok n =>
                  simp only [hp, hn, Except.ok.injEq] at h
                  subst h
                  obtain ⟨hw, hd⟩ := (PkgName.parse_eq_ok_iff name n).mp hn
                  obtain ⟨hvalue, hat⟩ := splitName_ok hs
                  exact ⟨suffix, hp, by rw [hvalue, hd], hw,
                    PkgName.noAt_of_display hw (by rw [hd]; exact hat)⟩

end PkgNameSuffix

section DependencyPath

variable {V : Type} [NodeSemver V]

/-- `{name}@{version}({peers})` -/
abbrev PkgNameVerPeer (V : Type) := PkgNameSuffix (PkgVerPeer V)

abbrev ParsePkgNameVerPeerError := ParsePkgNameSuffixError ParsePkgVerPeerError

def PkgNameVerPeer.fromStr (value : Text) :
    Except ParsePkgNameVerPeerError (PkgNameVerPeer V) :=
  PkgNameSuffix.fromStr PkgVerPeer.fromStr value

def PkgNameVerPeer.display (value : PkgNameVerPeer V) : Text :=
  PkgNameSuffix.display PkgVerPeer.display value

/-- A key of the `packages` map: `{custom_registry}/{package_specifier}`. -/
structure DependencyPath (V : Type) where
  customRegistry : Option Text
  packageSpecifier : PkgNameVerPeer V
deriving DecidableEq

instance [BEq V] : BEq (DependencyPath V) where
  beq a b := a.customRegistry == b.customRegistry && a.packageSpecifier == b.packageSpecifier

instance [BEq V] [ReflBEq V] : ReflBEq (DependencyPath V) where
  rfl {a} := by
    change (a.customRegistry == a.customRegistry &&
      a.packageSpecifier == a.packageSpecifier) = true
    simp

omit [NodeSemver V] in
theorem DependencyPath.beq_iff [BEq V] (a b : DependencyPath V) :
    (a == b) = true ↔ a.customRegistry = b.customRegistry ∧
      (a.packageSpecifier == b.packageSpecifier) = true := by
  change (a.customRegistry == b.customRegistry &&
    a.packageSpecifier == b.packageSpecifier) = true ↔ _
  simp

instance [BEq V] [EquivBEq V] : EquivBEq (DependencyPath V) where
  symm {a b} h := by
    rw [DependencyPath.beq_iff] at h ⊢
    exact ⟨h.1.symm, BEq.symm h.2⟩
  trans {a b c} h h' := by
    rw [DependencyPath.beq_iff] at h h' ⊢
    exact ⟨h.1.trans h'.1, BEq.trans h.2 h'.2⟩

inductive ParseDependencyPathError
  | invalidSyntax
  | parsePackageSpecifierFailure (error : ParsePkgNameVerPeerError)
deriving DecidableEq

def ParseDependencyPathError.display : ParseDependencyPathError → Text
  | .invalidSyntax => "Invalid syntax".toList
  | .parsePackageSpecifierFailure error =>
      "Failed to parse specifier: ".toList ++ error.display ParsePkgVerPeerError.display

def DependencyPath.fromStr (s : Text) :
    Except ParseDependencyPathError (DependencyPath V) :=
  match splitOnce '/' s with
  | none => .error .invalidSyntax
  | some (customRegistry, packageSpecifier) =>
      let customRegistry := if customRegistry = [] then none else some customRegistry
      match PkgNameVerPeer.fromStr packageSpecifier with
      | .error e => .error (.parsePackageSpecifierFailure e)
      | .ok packageSpecifier => .ok ⟨customRegistry, packageSpecifier⟩

def DependencyPath.display (path : DependencyPath V) : Text :=
  path.customRegistry.getD [] ++ '/' :: path.packageSpecifier.display

/-- The shape of a specifier read from text. -/
structure PkgNameVerPeer.Parsed (spec : PkgNameVerPeer V) : Prop where
  wellFormed : spec.name.WellFormed
  noAt : spec.name.NoAt
  peer : spec.suffix.peer = [] ∨ ∃ rest, spec.suffix.peer = '(' :: rest

theorem PkgNameVerPeer.parsed_of_fromStr {value : Text} {spec : PkgNameVerPeer V}
    (h : PkgNameVerPeer.fromStr value = .ok spec) : spec.Parsed := by
  obtain ⟨suffix, hs, _, hw, hat⟩ := PkgNameSuffix.fromStr_ok h
  obtain ⟨_, _, _, _, hpeer⟩ := PkgVerPeer.fromStr_ok hs
  exact ⟨hw, hat, hpeer⟩

theorem DependencyPath.parsed_of_fromStr {s : Text} {path : DependencyPath V}
    (h : DependencyPath.fromStr s = .ok path) : path.packageSpecifier.Parsed := by
  unfold DependencyPath.fromStr at h
  cases hs : splitOnce '/' s with
  | none => simp [hs] at h
  | some p =>
      cases hp : PkgNameVerPeer.fromStr (V := V) p.2 with
      | error e => simp [hs, hp] at h
      | ok spec =>
          simp only [hs, hp, Except.ok.injEq] at h
          subst h
          exact PkgNameVerPeer.parsed_of_fromStr hp

end DependencyPath

end Npnpm
