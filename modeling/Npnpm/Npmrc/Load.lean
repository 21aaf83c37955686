import Npnpm.Cli.RunScript
import Npnpm.PackageManager.InstallPackageBySnapshot

/-!
# Loading the configuration

`Npmrc::current` reads the `.npmrc` of the project, or else the one of the home directory.
The text is first rewritten line by line, so that paths are relative to the directory of
the file, and then decoded as INI. Settings that the text has no line for are given the
defaults of the project.

## Implementation notes

The INI decoder belongs to another crate and is the class `SerdeIni`. Fields are decoded
in two steps: the items are read, which fails where a value cannot be read or a field comes
twice, and then the settings are made. Paths are resolved in the second step; the working
directory is taken to be available, so they are resolved alike in the first. Settings that
the package manager does not use are read and dropped.
-/

namespace Npnpm

open Npnpm.Path

section Texts

/-- `str::lines` -/
def lines (text : Text) : List Text :=
  let pieces := text.splitOn '\n'
  (pieces.dropLast.map fun line => if line.getLast? = some '\r' then line.dropLast else line) ++
    pieces.getLast?.toList.filter (· ≠ [])

/-- A line cut at its first `=`, without the white space around the parts. -/
def keyValue (line : Text) : Option (Text × Text) :=
  (Text.splitOnce '=' line).map fun parts => (trim parts.1, trim parts.2)

/-- The value of the line, when it is a line of the key. -/
def valueOf (key line : Text) : Option Text :=
  (keyValue line).bind fun parts => if parts.1 = key then some parts.2 else none

end Texts

section Ini

inductive IniValue
  | value (text : Text)
  | section
deriving DecidableEq

/-- What is used of `serde_ini`: the items of a text in their order, none for a text that
is no INI, and how a list of patterns is read. A line with a key before the first section
header is an item with its value, and there are no other items with values. -/
class SerdeIni where
  items : Text → Option (List (Text × IniValue))
  patterns : IniValue → Option (List Text)
  sectionHeader : Text → Bool
  items_top : ∀ (text : Text) (found : List (Text × IniValue)) (key : Text),
    items text = some found → (∃ c ∈ key.head?, c.isAlpha = true) →
      (found.filterMap fun item => if item.1 = key then
        (match item.2 with
          | .value value => some value
          | .section => none) else none) =
        ((lines text).takeWhile fun line => !sectionHeader line).filterMap (valueOf key)

inductive NodeLinker
  | isolated
  | hoisted
  | pnp
deriving DecidableEq

/-- A value that a field has been given. A path is kept as it is written. -/
inductive FieldValue
  | bool (value : Bool)
  | patterns (value : List Text)
  | path (value : Text)
  | nodeLinker (value : NodeLinker)
  | packageImportMethod (value : PackageImportMethod)
  | number (value : Nat)
  | registry (value : Text)
deriving DecidableEq

/-- How the value of a field is read. -/
inductive FieldType
  | bool
  | patterns
  | path
  | nodeLinker
  | packageImportMethod
  | number
  | registry
deriving DecidableEq

/-- `String::deserialize` -/
def IniValue.string : IniValue → Option Text
  | .value text => some text
  | .section => none

def deserializeBool (value : IniValue) : Option Bool :=
  value.string.bind fun s =>
    if s = "true".toList then some true
    else if s = "false".toList then some false
    else none

/-- `u64::from_str` -/
def deserializeU64 (value : IniValue) : Option Nat :=
  value.string.bind fun s =>
    let digits := if s.head? = some '+' then s.drop 1 else s
    let number := digits.foldl (fun n c => 10 * n + (c.toNat - '0'.toNat)) 0
    if digits ≠ [] ∧ digits.all Char.isDigit ∧ number < 2 ^ 64 then some number else none

/-- A trailing slash is added if there is none. -/
def deserializeRegistry (value : IniValue) : Option Text :=
  value.string.map fun s => if s.getLast? = some '/' then s else s ++ ['/']

def deserializeNodeLinker (value : IniValue) : Option NodeLinker :=
  value.string.bind fun s =>
    if s = "isolated".toList then some .isolated
    else if s = "hoisted".toList then some .hoisted
    else if s = "pnp".toList then some .pnp
    else none

def deserializePackageImportMethod (value : IniValue) : Option PackageImportMethod :=
  value.string.bind fun s =>
    if s = "auto".toList then some .auto
    else if s = "hardlink".toList then some .hardlink
    else if s = "copy".toList then some .copy
    else if s = "clone".toList then some .clone
    else if s = "clone-or-copy".toList then some .cloneOrCopy
    else none

variable [SerdeIni]

def FieldType.read (type : FieldType) (value : IniValue) : Option FieldValue :=
  match type with
  | .bool => (deserializeBool value).map .bool
  | .patterns => (SerdeIni.patterns value).map .patterns
  | .path => value.string.map .path
  | .nodeLinker => (deserializeNodeLinker value).map .nodeLinker
  | .packageImportMethod => (deserializePackageImportMethod value).map .packageImportMethod
  | .number => (deserializeU64 value).map .number
  | .registry => (deserializeRegistry value).map .registry

omit [SerdeIni] in
/-- The fields of `Npmrc`, under their names in the file. -/
def fieldTypes : List (Text × FieldType) :=
  [("hoist".toList, .bool),
    ("hoist-pattern".toList, .patterns),
    ("public-hoist-pattern".toList, .patterns),
    ("shamefully-hoist".toList, .bool),
    ("store-dir".toList, .path),
    ("modules-dir".toList, .path),
    ("node-linker".toList, .nodeLinker),
    ("symlink".toList, .bool),
    ("virtual-store-dir".toList, .path),
    ("package-import-method".toList, .packageImportMethod),
    ("modules-cache-max-age".toList, .number),
    ("lockfile".toList, .bool),
    ("prefer-frozen-lockfile".toList, .bool),
    ("lockfile-include-tarball-url".toList, .bool),
    ("registry".toList, .registry),
    ("auto-install-peers".toList, .bool),
    ("dedupe-peer-dependents".toList, .bool),
    ("strict-peer-dependencies".toList, .bool),
    ("resolve-peers-from-workspace-root".toList, .bool)]

omit [SerdeIni] in
def fieldType (key : Text) : Option FieldType :=
  (fieldTypes.find? fun field => field.1 = key).map Prod.snd

abbrev Fields := KeyedMap Text FieldValue

/-- Other keys are ignored, and a field that comes twice is an error. -/
def readItem (fields : Fields) (item : Text × IniValue) : Option Fields :=
  match fieldType item.1 with
  | none => some fields
  | some type =>
      if (fields.get item.1).isSome then none
      else (type.read item.2).map fun value => fields.insert item.1 value

def readFields (text : Text) : Option Fields :=
  (SerdeIni.items text).bind fun items => items.foldlM readItem KeyedMap.empty

end Ini

section Settings

/-- What the process has from its environment. -/
structure ProcessEnv where
  currentDir : Text
  /-- the texts of files, under absolute paths -/
  files : Text → Option Text
  pnpmHome : Option Text
  xdgDataHome : Option Text
  homeDir : Option Text
  os : Text

inductive NpmrcPanic
  | homeDirUnavailable
  | unsupportedOs (os : Text)
  | defaultUnreadable
deriving DecidableEq

def defaultStoreDir (env : ProcessEnv) : Except NpmrcPanic Text :=
  match env.pnpmHome with
  | some pnpmHome => .ok (join pnpmHome "store".toList)
  | none =>
      match env.xdgDataHome with
      | some xdgDataHome => .ok (join (join xdgDataHome "pnpm".toList) "store".toList)
      | none =>
          match env.homeDir with
          | none => .error .homeDirUnavailable
          | some homeDir =>
              if env.os = "linux".toList then
                .ok (join homeDir ".local/share/pnpm/store".toList)
              else if env.os = "macos".toList then
                .ok (join homeDir "Library/pnpm/store".toList)
              else .error (.unsupportedOs env.os)

def defaultModulesDir (env : ProcessEnv) : Text := join env.currentDir "node_modules".toList

def defaultVirtualStoreDir (env : ProcessEnv) : Text :=
  join env.currentDir "node_modules/.pnpm".toList

def deserializePathbuf (env : ProcessEnv) (path : Text) : Text :=
  if isAbsolute path then path else join env.currentDir path

def FieldValue.asBool : FieldValue → Option Bool
  | .bool value => some value
  | _ => none

def FieldValue.asPath : FieldValue → Option Text
  | .path value => some value
  | _ => none

def FieldValue.asPackageImportMethod : FieldValue → Option PackageImportMethod
  | .packageImportMethod value => some value
  | _ => none

def FieldValue.asRegistry : FieldValue → Option Text
  | .registry value => some value
  | _ => none

def Fields.bool (fields : Fields) (key : Text) (default : Bool) : Bool :=
  ((fields.get key).bind FieldValue.asBool).getD default

def Fields.path (fields : Fields) (key : Text) : Option Text :=
  (fields.get key).bind FieldValue.asPath

def Fields.storeDir (fields : Fields) (env : ProcessEnv) : Except NpmrcPanic Text :=
  match fields.path "store-dir".toList with
  | some path => .ok (deserializePathbuf env path)
  | none => defaultStoreDir env

def Npmrc.fromFields (env : ProcessEnv) (fields : Fields) : Except NpmrcPanic Npmrc := do
  let storeDir ← fields.storeDir env
  .ok {
    registry := ((fields.get "registry".toList).bind FieldValue.asRegistry).getD
      "https://registry.npmjs.org/".toList
    storeDir := storeDir
    modulesDir := ((fields.path "modules-dir".toList).map (deserializePathbuf env)).getD
      (defaultModulesDir env)
    virtualStoreDir := ((fields.path "virtual-store-dir".toList).map
      (deserializePathbuf env)).getD (defaultVirtualStoreDir env)
    packageImportMethod := ((fields.get "package-import-method".toList).bind
      FieldValue.asPackageImportMethod).getD .auto
    lockfile := fields.bool "lockfile".toList false
    preferFrozenLockfile := fields.bool "prefer-frozen-lockfile".toList true
    lockfileIncludeTarballUrl := fields.bool "lockfile-include-tarball-url".toList false
    autoInstallPeers := fields.bool "auto-install-peers".toList true }

variable [SerdeIni]

/-- `Npmrc::new` -/
def Npmrc.new (env : ProcessEnv) : Except NpmrcPanic Npmrc :=
  match readFields [] with
  | none => .error .defaultUnreadable
  | some fields => Npmrc.fromFields env fields

end Settings

section Load

/-- The path fields that the text has a line for. -/
structure PathFieldPresence where
  modulesDir : Bool
  virtualStoreDir : Bool
deriving DecidableEq

def normalizePathValue (configDir value : Text) : Text :=
  if isAbsolute value then value else join configDir value

def normalizeNpmrcLine (configDir line : Text) (presence : PathFieldPresence) :
    Text × PathFieldPresence :=
  match Text.splitOnce '=' line with
  | none => (line, presence)
  | some (key, value) =>
      let normalized := key ++ '=' :: normalizePathValue configDir (trim value)
      if trim key = "modules-dir".toList then
        (normalized, { presence with modulesDir := true })
      else if trim key = "virtual-store-dir".toList then
        (normalized, { presence with virtualStoreDir := true })
      else if trim key = "store-dir".toList then (normalized, presence)
      else (line, presence)

/-- The lines that have been rewritten, and the fields that have been found. -/
def normalizeLines (configDir : Text) :
    List Text → PathFieldPresence → List Text × PathFieldPresence
  | [], presence => ([], presence)
  | line :: rest, presence =>
      let (normalized, presence) := normalizeNpmrcLine configDir line presence
      let (others, presence) := normalizeLines configDir rest presence
      (normalized :: others, presence)

def normalizeNpmrcText (text configDir : Text) : Text × PathFieldPresence :=
  let (normalized, presence) := normalizeLines configDir (lines text) ⟨false, false⟩
  (List.intercalate ['\n'] normalized, presence)

/-- `fs::read_to_string` -/
def ProcessEnv.readToString (env : ProcessEnv) (path : Text) : Option Text :=
  env.files (join env.currentDir path)

def applyProjectDirDefaults (config : Npmrc) (projectDir : Text) : Npmrc :=
  { config with
    modulesDir := join projectDir "node_modules".toList
    virtualStoreDir := join projectDir "node_modules/.pnpm".toList }

/-- The defaults of the project, for the fields that the text has no line for. -/
def applyMissingDefaults (config : Npmrc) (presence : PathFieldPresence) (projectDir : Text) :
    Npmrc :=
  { config with
    modulesDir :=
      if presence.modulesDir then config.modulesDir
      else join projectDir "node_modules".toList
    virtualStoreDir :=
      if presence.virtualStoreDir then config.virtualStoreDir
      else join projectDir "node_modules/.pnpm".toList }

variable [SerdeIni]

def loadNpmrc (env : ProcessEnv) (projectDir configDir : Text) :
    Except NpmrcPanic (Option Npmrc) :=
  match env.readToString (join configDir ".npmrc".toList) with
  | none => .ok none
  | some text =>
      let (text, presence) := normalizeNpmrcText text configDir
      match readFields text with
      | none => .ok none
      | some fields =>
          (Npmrc.fromFields env fields).map fun config =>
            some (applyMissingDefaults config presence projectDir)

/-- `Npmrc::current`, given what its three arguments return. -/
def Npmrc.current (env : ProcessEnv) (currentDir homeDir : Option Text)
    (default : Except NpmrcPanic Npmrc) : Except NpmrcPanic Npmrc := do
  let fromProject ←
    match currentDir with
    | none => .ok none
    | some dir => loadNpmrc env dir dir
  match fromProject with
  | some config => .ok config
  | none => do
      let fromHome ←
        match homeDir with
        | none => .ok none
        | some configDir => loadNpmrc env (currentDir.getD configDir) configDir
      match fromHome with
      | some config => .ok config
      | none => do
          let config ← default
          match currentDir with
          | some projectDir => .ok (applyProjectDirDefaults config projectDir)
          | none => .ok config

end Load

end Npnpm
