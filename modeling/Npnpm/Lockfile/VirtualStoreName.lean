import Npnpm.Lockfile.Names

/-!
# Virtual store names

The directory of a package inside the virtual store is named after its
specifier. The encoding writes the scope separator as `+`, and reads the peer
suffix character by character with `/` as `+`, `(` as `_` and `)` as nothing.
Which specifiers share a name is settled here once, as a relation on their
parts that does not mention the encoding.
-/

namespace Npnpm

open Npnpm.Text

def pushVirtualStoreName (buf : Text) (name : PkgName) : Text :=
  let buf := match name.scope with
    | some scope => buf ++ '@' :: scope ++ ['+']
    | none => buf
  buf ++ name.bare

def pushVirtualStorePeerSuffix (buf peer : Text) : Text :=
  peer.foldl (fun buf ch =>
    if ch = '/' then buf ++ ['+']
    else if ch = '(' then buf ++ ['_']
    else if ch = ')' then buf
    else buf ++ [ch]) buf

section Encoding

variable {V : Type} [NodeSemver V]

def PkgNameVerPeer.toVirtualStoreNameFromParts (name : PkgName) (verPeer : PkgVerPeer V) :
    Text :=
  let result := pushVirtualStoreName [] name
  let result := result ++ ['@']
  let result := result ++ NodeSemver.display verPeer.version
  pushVirtualStorePeerSuffix result verPeer.peer

def PkgNameVerPeer.toVirtualStoreName (spec : PkgNameVerPeer V) : Text :=
  PkgNameVerPeer.toVirtualStoreNameFromParts spec.name spec.suffix

end Encoding

/-- What one character of a peer suffix contributes to the directory name. -/
def peerSign (c : Char) : Text :=
  if c = '/' then ['+'] else if c = '(' then ['_'] else if c = ')' then [] else [c]

theorem pushVirtualStorePeerSuffix_eq (buf peer : Text) :
    pushVirtualStorePeerSuffix buf peer = buf ++ peer.flatMap peerSign := by
  unfold pushVirtualStorePeerSuffix
  induction peer generalizing buf with
  | nil => simp
  | cons c rest ih =>
      simp only [List.foldl_cons, List.flatMap_cons, peerSign]
      rw [ih]
      split_ifs <;> simp

section Alike

/-- Two characters that a directory name does not tell apart. -/
def SameSign (c d : Char) : Prop :=
  c = d ∨ (c = '/' ∧ d = '+') ∨ (c = '+' ∧ d = '/') ∨ (c = '(' ∧ d = '_') ∨
    (c = '_' ∧ d = '(')

/-- Peer suffixes that differ only in closing parentheses, and in writing `/`
for `+` or `(` for `_`. Nesting is lost this way: `(a@1(b@2))` is alike
`(a@1)(b@2)`. -/
inductive PeerAlike : Text → Text → Prop
  | nil : PeerAlike [] []
  | sign {c d p q} (h : SameSign c d) (tail : PeerAlike p q) : PeerAlike (c :: p) (d :: q)
  | closeLeft {p q} (tail : PeerAlike p q) : PeerAlike (')' :: p) q
  | closeRight {p q} (tail : PeerAlike p q) : PeerAlike p (')' :: q)

/-- Names that are equal, or whose scopes are cut from one text at different
`+` signs. -/
inductive NameAlike : PkgName → PkgName → Prop
  | same (name) : NameAlike name name
  | longerLeft (scope middle bare) :
      NameAlike ⟨some (scope ++ '+' :: middle), bare⟩ ⟨some scope, middle ++ '+' :: bare⟩
  | longerRight (scope middle bare) :
      NameAlike ⟨some scope, middle ++ '+' :: bare⟩ ⟨some (scope ++ '+' :: middle), bare⟩

theorem peerSign_eq_of_sameSign {c d : Char} (h : SameSign c d) : peerSign c = peerSign d := by
  rcases h with rfl | ⟨rfl, rfl⟩ | ⟨rfl, rfl⟩ | ⟨rfl, rfl⟩ | ⟨rfl, rfl⟩ <;> rfl

theorem sameSign_of_peerSign_eq {c d : Char} (hc : c ≠ ')') (hd : d ≠ ')')
    (h : peerSign c = peerSign d) : SameSign c d := by
  unfold peerSign at h
  unfold SameSign
  split_ifs at h <;> grind

theorem peerSign_ne_nil {c : Char} (hc : c ≠ ')') : ∃ d, peerSign c = [d] := by
  unfold peerSign
  split_ifs <;> simp

/-- The peer part of a directory name determines the suffix up to `PeerAlike`. -/
theorem flatMap_peerSign_eq_iff (p q : Text) :
    p.flatMap peerSign = q.flatMap peerSign ↔ PeerAlike p q := by
  constructor
  · intro h
    induction p generalizing q with
    | nil =>
        induction q with
        | nil => exact .nil
        | cons d q ih =>
            by_cases hd : d = ')'
            · subst hd
              exact .closeRight (ih h)
            · obtain ⟨e, he⟩ := peerSign_ne_nil hd
              simp [he] at h
    | cons c p ihp =>
        by_cases hc : c = ')'
        · subst hc
          exact .closeLeft (ihp q h)
        · obtain ⟨e, he⟩ := peerSign_ne_nil hc
          induction q with
          | nil => simp [he] at h
          | cons d q ihq =>
              by_cases hd : d = ')'
              · subst hd
                exact .closeRight (ihq h)
              · obtain ⟨e', he'⟩ := peerSign_ne_nil hd
                simp only [List.flatMap_cons, he, he', List.singleton_append,
                  List.cons.injEq] at h
                exact .sign (sameSign_of_peerSign_eq hc hd (by rw [he, he', h.1])) (ihp q h.2)
  · intro h
    induction h with
    | nil => rfl
    | sign h _ ih => simp only [List.flatMap_cons, peerSign_eq_of_sameSign h, ih]
    | closeLeft _ ih => simpa [peerSign] using ih
    | closeRight _ ih => simpa [peerSign] using ih

/-- Cutting one text at two `+` signs moves what lies between them. -/
theorem append_plus_eq_iff (s s' b b' : Text) :
    s ++ '+' :: b = s' ++ '+' :: b' ↔ NameAlike ⟨some s, b⟩ ⟨some s', b'⟩ := by
  constructor
  · intro h
    rcases List.append_eq_append_iff.mp h with ⟨m, hs', hb⟩ | ⟨m, hs, hb⟩
    · cases m with
      | nil =>
          simp only [List.append_nil, List.nil_append, List.cons.injEq, true_and] at hs' hb
          rw [hs', hb]
          exact .same _
      | cons x m =>
          simp only [List.cons_append, List.cons.injEq] at hb
          obtain ⟨rfl, rfl⟩ := hb
          rw [hs']
          exact .longerRight s m b'
    · cases m with
      | nil =>
          simp only [List.append_nil, List.nil_append, List.cons.injEq, true_and] at hs hb
          rw [hs, hb]
          exact .same _
      | cons x m =>
          simp only [List.cons_append, List.cons.injEq] at hb
          obtain ⟨rfl, rfl⟩ := hb
          rw [hs]
          exact .longerLeft s' m b
  · intro h
    cases h <;> simp

end Alike

section Collisions

variable {V : Type} [NodeSemver V]

/-- Specifiers that the virtual store puts in one directory. -/
structure SpecifierAlike (a b : PkgNameVerPeer V) : Prop where
  name : NameAlike a.name b.name
  version : NodeSemver.display a.suffix.version = NodeSemver.display b.suffix.version
  peer : PeerAlike a.suffix.peer b.suffix.peer

theorem toVirtualStoreName_eq (spec : PkgNameVerPeer V) :
    spec.toVirtualStoreName =
      pushVirtualStoreName [] spec.name ++ '@' ::
        (NodeSemver.display spec.suffix.version ++ spec.suffix.peer.flatMap peerSign) := by
  simp [PkgNameVerPeer.toVirtualStoreName, PkgNameVerPeer.toVirtualStoreNameFromParts,
    pushVirtualStorePeerSuffix_eq]

/-- The name part ends at the first `@` that is not the scope mark. -/
theorem pushVirtualStoreName_append_inj {a b : PkgName} (ha : a.WellFormed) (hb : b.WellFormed)
    (haat : a.NoAt) (hbat : b.NoAt) (r r' : Text) :
    pushVirtualStoreName [] a ++ '@' :: r = pushVirtualStoreName [] b ++ '@' :: r' ↔
      NameAlike a b ∧ r = r' := by
  obtain ⟨sa, ba⟩ := a
  obtain ⟨sb, bb⟩ := b
  cases sa with
  | none =>
      cases sb with
      | none =>
          simp only [pushVirtualStoreName, List.nil_append,
            append_cons_inj haat.1 hbat.1]
          constructor
          · rintro ⟨rfl, rfl⟩
            exact ⟨.same _, rfl⟩
          · rintro ⟨h, rfl⟩
            cases h
            exact ⟨rfl, rfl⟩
      | some sb =>
          obtain ⟨x, rest, hx, hne⟩ := ha
          simp only at hx
          subst hx
          constructor
          · intro h
            simp only [pushVirtualStoreName, List.nil_append, List.cons_append,
              List.cons.injEq] at h
            exact absurd h.1 hne
          · rintro ⟨h, _⟩
            cases h
  | some sa =>
      cases sb with
      | none =>
          obtain ⟨x, rest, hx, hne⟩ := hb
          simp only at hx
          subst hx
          constructor
          · intro h
            simp only [pushVirtualStoreName, List.nil_append, List.cons_append,
              List.cons.injEq] at h
            exact absurd h.1.symm hne
          · rintro ⟨h, _⟩
            cases h
      | some sb =>
          have hla : '@' ∉ sa ++ '+' :: ba := by
            simpa using ⟨haat.2 sa rfl, haat.1⟩
          have hlb : '@' ∉ sb ++ '+' :: bb := by
            simpa using ⟨hbat.2 sb rfl, hbat.1⟩
          have hcut : (sa ++ '+' :: ba) ++ '@' :: r = (sb ++ '+' :: bb) ++ '@' :: r' ↔
              sa ++ '+' :: ba = sb ++ '+' :: bb ∧ r = r' := append_cons_inj hla hlb
          rw [append_plus_eq_iff] at hcut
          simpa [pushVirtualStoreName] using hcut

/-- The version ends at the first underscore, which a peer part starts with. -/
theorem version_append_inj [PlainSemver V] {v w : PkgVerPeer V}
    (hv : v.peer = [] ∨ ∃ rest, v.peer = '(' :: rest)
    (hw : w.peer = [] ∨ ∃ rest, w.peer = '(' :: rest) :
    NodeSemver.display v.version ++ v.peer.flatMap peerSign =
        NodeSemver.display w.version ++ w.peer.flatMap peerSign ↔
      NodeSemver.display v.version = NodeSemver.display w.version ∧
        PeerAlike v.peer w.peer := by
  have hplain (u : V) : '_' ∉ NodeSemver.display u := fun hmem =>
    (PlainSemver.plain u '_' hmem).2.2.2.2 rfl
  rw [← flatMap_peerSign_eq_iff]
  have hopen (rest : Text) : ('(' :: rest).flatMap peerSign = '_' :: rest.flatMap peerSign := rfl
  constructor
  · intro h
    rcases hv with hv | ⟨p, hv⟩ <;> rcases hw with hw | ⟨q, hw⟩
    · simpa [hv, hw] using h
    · rw [hv, hw, hopen, List.flatMap_nil, List.append_nil] at h
      exact absurd (by simp [h]) (hplain v.version)
    · rw [hv, hw, hopen, List.flatMap_nil, List.append_nil] at h
      exact absurd (by simp [← h]) (hplain w.version)
    · rw [hv, hw, hopen, hopen] at h ⊢
      obtain ⟨hver, hpeer⟩ := (append_cons_inj (hplain _) (hplain _)).mp h
      exact ⟨hver, by rw [hpeer]⟩
  · rintro ⟨hver, hpeer⟩
    rw [hver, hpeer]

/-- Exactly the alike specifiers share a directory name. -/
theorem toVirtualStoreName_eq_iff [PlainSemver V] {a b : PkgNameVerPeer V}
    (ha : a.Parsed) (hb : b.Parsed) :
    a.toVirtualStoreName = b.toVirtualStoreName ↔ SpecifierAlike a b := by
  rw [toVirtualStoreName_eq, toVirtualStoreName_eq,
    pushVirtualStoreName_append_inj ha.wellFormed hb.wellFormed ha.noAt hb.noAt,
    version_append_inj ha.peer hb.peer]
  constructor
  · rintro ⟨hname, hver, hpeer⟩
    exact ⟨hname, hver, hpeer⟩
  · rintro ⟨hname, hver, hpeer⟩
    exact ⟨hname, hver, hpeer⟩

end Collisions

end Npnpm
