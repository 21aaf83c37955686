import Npnpm.Library.Path
import Npnpm.Library.ShellWords
import Npnpm.PackageManifest.Dependencies

/-!
# Running a script with arguments

A script of the manifest is handed to a shell with the arguments escaped behind it. An
argument is put into quotes when it has one of certain characters; the shell gives some
others a meaning too.
-/

namespace Npnpm

def ManifestField.getStr (field : ManifestField) (key : Text) : Option Text :=
  (field.asObject.bind (·.get key)).bind ManifestSpecifier.asStr

def PackageManifest.script (manifest : PackageManifest) (command : Text) (ifPresent : Bool) :
    Except PackageManifestError (Option Text) :=
  match (manifest.value.get "scripts".toList).bind (·.getStr command) with
  | some script => .ok (some script)
  | none => if ifPresent then .ok none else .error (.noScript command)

/-- `char::is_whitespace`, the property `White_Space` of Unicode. -/
def isWhitespace (c : Char) : Bool :=
  (9 ≤ c.toNat && c.toNat ≤ 13) || (0x2000 ≤ c.toNat && c.toNat ≤ 0x200a) ||
    c.toNat ∈ [0x20, 0x85, 0xa0, 0x1680, 0x2028, 0x2029, 0x202f, 0x205f, 0x3000]

def trimStart (s : Text) : Text := s.dropWhile isWhitespace

def trimEnd (s : Text) : Text := (s.reverse.dropWhile isWhitespace).reverse

/-- `str::trim` -/
def trim (s : Text) : Text := trimEnd (trimStart s)

def needsQuotes (arg : Text) : Bool :=
  arg.isEmpty || arg.any fun char =>
    isWhitespace char || char ∈ ['\'', '"', '\\', '$', '\x60', '!', '&', ';', '|', '<', '>']

/-- `arg.replace('\'', "'\\''")` -/
def replaceQuotes (arg : Text) : Text :=
  arg.flatMap fun char => if char = '\'' then "'\\''".toList else [char]

def shellEscape (arg : Text) : Text :=
  if needsQuotes arg then '\'' :: (replaceQuotes arg ++ ['\'']) else arg

/-- What the arguments add to the script. -/
def appendedArgs (args : List Text) : Text := List.intercalate [' '] (args.map shellEscape)

/-- The process that is started. -/
structure SpawnedCommand where
  program : Text
  args : List Text
  currentDir : Option Text
  extraPaths : List Text
  npmCommand : Option Text

def executeShellWithContext (command : Text) (cwd : Option Text) (extraPaths : List Text)
    (npmCommand : Option Text) : SpawnedCommand :=
  ⟨"sh".toList, ["-c".toList, command], cwd, extraPaths, npmCommand⟩

def projectBinPaths (baseDir : Text) : List Text :=
  [Path.join (Path.join baseDir "node_modules".toList) ".bin".toList]

def commandLine (script : Text) (args : List Text) : Text :=
  trim (script ++ ' ' :: appendedArgs args)

/-- The command line up to the arguments. -/
def scriptPart (script : Text) (args : List Text) : Text :=
  if args.isEmpty then trim (script ++ [' ']) else trimStart (script ++ [' '])

/-- A missing script that may be missing starts nothing. -/
def runScript (manifest : PackageManifest) (baseDir command : Text) (args : List Text)
    (ifPresent : Bool) : Except PackageManifestError (Option SpawnedCommand) := do
  let script ← manifest.script command ifPresent
  .ok (script.map fun script =>
    executeShellWithContext (commandLine script args) (some baseDir) (projectBinPaths baseDir)
      (some "run-script".toList))

open Shell

section Escape

variable {a : Text}

theorem appendedArgs_cons_cons (a b : Text) (rest : List Text) :
    appendedArgs (a :: b :: rest) = shellEscape a ++ ' ' :: appendedArgs (b :: rest) := by
  simp [appendedArgs, List.intercalate]

theorem appendedArgs_singleton (a : Text) : appendedArgs [a] = shellEscape a := by
  simp [appendedArgs, List.intercalate]

/-- The word that an argument is read as, if it is read as one. -/
def argWord (a : Text) : Word := if needsQuotes a then quotedWord a else plainWord a

theorem text_argWord (a : Text) : (argWord a).text = a := by
  unfold argWord
  split
  · exact text_quotedWord a
  · exact text_plainWord a

/-- In single quotes every text is read as itself. -/
theorem tokens_replaceQuotes (a : Text) (s : State) (w : Word) (rest : Text) :
    (s.withMode (.single w)).tokens (replaceQuotes a ++ '\'' :: rest) =
      (s.withMode (.word (w ++ quotedWord a))).tokens rest := by
  induction a generalizing w with
  | nil =>
      rw [quotedWord, List.map_nil, List.append_nil]
      exact State.tokens_step rfl
  | cons c a ih =>
      have hread : (s.withMode (.single w)).tokens (replaceQuotes (c :: a) ++ '\'' :: rest) =
          (s.withMode (.single (w ++ [⟨c, .quoted⟩]))).tokens
            (replaceQuotes a ++ '\'' :: rest) := by
        by_cases hc : c = '\''
        · -- the quotes are closed, the apostrophe is escaped and the quotes are opened again
          subst hc
          have hclose : (s.withMode (.single w)).tokens
              (replaceQuotes ('\'' :: a) ++ '\'' :: rest) =
                (s.withMode (.word w)).tokens
                  ('\\' :: '\'' :: '\'' :: (replaceQuotes a ++ '\'' :: rest)) :=
            State.tokens_step rfl
          have hescape : (s.withMode (.word w)).tokens
              ('\\' :: '\'' :: '\'' :: (replaceQuotes a ++ '\'' :: rest)) =
                (s.withMode (.escape (some w))).tokens
                  ('\'' :: '\'' :: (replaceQuotes a ++ '\'' :: rest)) :=
            State.tokens_step rfl
          have hquote : (s.withMode (.escape (some w))).tokens
              ('\'' :: '\'' :: (replaceQuotes a ++ '\'' :: rest)) =
                (s.withMode (.word (w ++ [⟨'\'', .quoted⟩]))).tokens
                  ('\'' :: (replaceQuotes a ++ '\'' :: rest)) :=
            State.tokens_step rfl
          rw [hclose, hescape, hquote]
          exact State.tokens_step rfl
        · rw [replaceQuotes, List.flatMap_cons, if_neg hc, List.append_assoc, List.singleton_append]
          exact State.tokens_step (congrArg (s.withMode (.single w)).goTo (if_neg hc))
      rw [hread, ih, List.append_assoc]
      rfl

/-- No character of an argument without quotes has a meaning, except for parentheses. -/
theorem ordinary_of_not_needsQuotes (ha : needsQuotes a = false) {c : Char} (hc : c ∈ a)
    (hparenthesis : isParenthesis c = false) : ordinary c = true := by
  rw [needsQuotes, Bool.or_eq_false_iff, List.any_eq_false] at ha
  have hchar := ha.2 c hc
  simp only [Bool.or_eq_true, decide_eq_true_eq, not_or, List.mem_cons, List.not_mem_nil,
    or_false] at hchar
  obtain ⟨hwhitespace, hsingle, hdouble, hescape, hdollar, hbacktick, -, hand, hsemicolon, hor,
    hless, hgreater⟩ := hchar
  have hspace : c ≠ ' ' ∧ c ≠ '\t' ∧ c ≠ '\n' := by
    refine ⟨?_, ?_, ?_⟩
    all_goals
      rintro rfl
      exact hwhitespace rfl
  simp only [isParenthesis, Bool.or_eq_false_iff, beq_eq_false_iff_ne] at hparenthesis
  simp [ordinary, isBlank, isOperator, isSubstitution, hsingle, hdouble, hescape, hdollar,
    hbacktick, hand, hsemicolon, hor, hless, hgreater, hspace, hparenthesis]

def WithoutParentheses (a : Text) : Prop := ∀ c ∈ a, isParenthesis c = false

/-- The shell reads an argument that is not in quotes as one word. -/
structure ReadsAsWord (a : Text) : Prop where
  comment : a.head? ≠ some '#'
  parentheses : WithoutParentheses a

theorem shellEscape_of_plain (ha : needsQuotes a = false) : shellEscape a = a := by
  rw [shellEscape, ha, if_neg Bool.false_ne_true]

theorem argWord_of_plain (ha : needsQuotes a = false) : argWord a = plainWord a := by
  rw [argWord, ha, if_neg Bool.false_ne_true]

/-- An argument behind a part of a word belongs to the word. -/
theorem tokens_word_shellEscape (h : needsQuotes a = true ∨ WithoutParentheses a) (s : State)
    (w : Word) (rest : Text) :
    (s.withMode (.word w)).tokens (shellEscape a ++ rest) =
      (s.withMode (.word (w ++ argWord a))).tokens rest := by
  cases ha : needsQuotes a with
  | true =>
      have hopen : (s.withMode (.word w)).step '\'' = ([], s.withMode (.single w)) := rfl
      rw [shellEscape, argWord, ha, if_pos rfl, if_pos rfl, List.cons_append,
        State.tokens_step hopen, List.append_assoc]
      exact tokens_replaceQuotes a s w rest
  | false =>
      have hparentheses := h.resolve_left (by rw [ha]; exact Bool.false_ne_true)
      rw [shellEscape_of_plain ha, argWord_of_plain ha]
      exact State.tokens_ordinary (fun c hc => ordinary_of_not_needsQuotes ha hc
        (hparentheses c hc)) s w rest

theorem tokens_between_shellEscape (h : needsQuotes a = true ∨ ReadsAsWord a) (s : State)
    (rest : Text) :
    (s.withMode .between).tokens (shellEscape a ++ rest) =
      (s.withMode (.word (argWord a))).tokens rest := by
  cases ha : needsQuotes a with
  | true =>
      have hopen : (s.withMode .between).step '\'' = ([], s.withMode (.single [])) := rfl
      rw [shellEscape, argWord, ha, if_pos rfl, if_pos rfl, List.cons_append,
        State.tokens_step hopen, List.append_assoc]
      exact tokens_replaceQuotes a s [] rest
  | false =>
      have hreads := h.resolve_left (by rw [ha]; exact Bool.false_ne_true)
      rw [shellEscape_of_plain ha, argWord_of_plain ha]
      refine State.tokens_between_ordinary (fun c hc => ordinary_of_not_needsQuotes ha hc
        (hreads.parentheses c hc)) ?_ hreads.comment s rest
      rintro rfl
      cases ha

theorem tokens_shellEscape (ha : needsQuotes a = true ∨ ReadsAsWord a) (atCommand : Bool) :
    (State.between atCommand).tokens (shellEscape a) =
      some [(argWord a).token atCommand] := by
  have hread := tokens_between_shellEscape ha (.between atCommand) []
  change (State.between atCommand).tokens _ = _ at hread
  rw [List.append_nil] at hread
  have hcomplete : ((State.between atCommand).withMode (.word (argWord a))).complete (argWord a) =
      ([(argWord a).token atCommand], .between (atCommand && (argWord a).leads)) :=
    State.complete_argument rfl (argWord a)
  rw [hread, State.tokens, State.read, State.finish]
  change Option.map _ (if (State.complete _ (argWord a)).2.hereDocuments = [] then
    some (State.complete _ (argWord a)).1 else none) = _
  rw [hcomplete]
  rfl

theorem tokens_shellEscape_blank (ha : needsQuotes a = true ∨ ReadsAsWord a) (atCommand : Bool)
    (rest : Text) :
    (State.between atCommand).tokens (shellEscape a ++ ' ' :: rest) =
      ((State.between (atCommand && (argWord a).leads)).tokens rest).map
        ((argWord a).token atCommand :: ·) := by
  have hread := tokens_between_shellEscape ha (.between atCommand) (' ' :: rest)
  change (State.between atCommand).tokens _ = _ at hread
  rw [hread, State.tokens_blank, State.complete_argument rfl]
  rfl

theorem tokens_appendedArgs {args : List Text} {atCommand : Bool}
    (h : ∀ a ∈ args, needsQuotes a = true ∨ ReadsAsWord a)
    (hlead : atCommand = true → ∀ a ∈ args.head?, (argWord a).leads = false) :
    (State.between atCommand).tokens (appendedArgs args) =
      some ((args.map argWord).map .word) := by
  induction args generalizing atCommand with
  | nil => rfl
  | cons a args ih =>
      have ha := h a List.mem_cons_self
      have hrest : (State.between false).tokens (appendedArgs args) = _ :=
        ih (fun b hb => h b (List.mem_cons_of_mem _ hb)) fun hcommand => absurd hcommand (by decide)
      have hfirst : (atCommand && (argWord a).leads) = false := by
        cases atCommand with
        | true => exact hlead rfl a rfl
        | false => rfl
      have htoken : (argWord a).token atCommand = .word (argWord a) := by
        rw [Word.token, hfirst, if_neg Bool.false_ne_true]
      cases args with
      | nil =>
          rw [appendedArgs_singleton, tokens_shellEscape ha, htoken]
          rfl
      | cons b args =>
          rw [appendedArgs_cons_cons, tokens_shellEscape_blank ha, hfirst, hrest, htoken]
          rfl

/-- A parenthesis of an argument that is not in quotes is an operator. -/
theorem operator_mem_of_plain (ha : needsQuotes a = false) (hparentheses : ¬WithoutParentheses a)
    {s : State} {mode : Mode}
    (hmode : (mode = .between ∧ a.head? ≠ some '#') ∨ ∃ w, mode = .word w) {rest : Text}
    {ts : List Token} (h : (s.withMode mode).tokens (a ++ rest) = some ts) :
    ∃ c, Token.operator c ∈ ts := by
  simp only [WithoutParentheses, not_forall, Bool.not_eq_false] at hparentheses
  obtain ⟨c, hc, hparenthesis⟩ := hparentheses
  exact State.operator_mem_of_parenthesis (fun d hd => ordinary_of_not_needsQuotes ha hd)
    ⟨c, hc, hparenthesis⟩ hmode h

theorem not_operator_mem_words {ws : List Word} : ¬∃ c, Token.operator c ∈ ws.map Token.word := by
  rintro ⟨c, hc⟩
  obtain ⟨w, -, hw⟩ := List.mem_map.mp hc
  cases hw

/-- An argument behind which there are only words is a word itself or begins a comment. -/
theorem readsAsWord_of_words {rest : Text} {ws : List Word} {atCommand : Bool}
    (h : (State.between atCommand).tokens (shellEscape a ++ rest) = some (ws.map .word)) :
    (needsQuotes a = true ∨ ReadsAsWord a) ∨ ws = [] := by
  cases ha : needsQuotes a with
  | true => exact Or.inl (Or.inl rfl)
  | false =>
      rw [shellEscape_of_plain ha] at h
      by_cases hcomment : a.head? = some '#'
      · obtain ⟨a', rfl⟩ := List.head?_eq_some_iff.mp hcomment
        have hstep : (State.between atCommand).step '#' =
            ([], (State.between atCommand).withMode .comment) := rfl
        rw [List.cons_append, State.tokens_step hstep] at h
        rcases State.tokens_comment h with hempty | hoperator
        · exact Or.inr (List.map_eq_nil_iff.mp hempty)
        · exact absurd hoperator not_operator_mem_words
      · by_cases hparentheses : WithoutParentheses a
        · exact Or.inl (Or.inr ⟨hcomment, hparentheses⟩)
        · have hmode : ((State.between atCommand).withMode .between).tokens (a ++ rest) =
              some (ws.map .word) := h
          exact absurd (operator_mem_of_plain ha hparentheses (Or.inl ⟨rfl, hcomment⟩) hmode)
            not_operator_mem_words

/-- The words of one argument. -/
theorem words_singleton {ws : List Word} {atCommand : Bool}
    (h : (State.between atCommand).tokens (appendedArgs [a]) = some (ws.map .word)) :
    ws = [] ∨ (ws = [argWord a] ∧ (needsQuotes a = true ∨ ReadsAsWord a) ∧
      (atCommand && (argWord a).leads) = false) := by
  rw [appendedArgs_singleton] at h
  have happend := h
  rw [← List.append_nil (shellEscape a)] at happend
  rcases readsAsWord_of_words happend with ha | hempty
  · rw [tokens_shellEscape ha] at h
    obtain ⟨w, rfl, hw⟩ := List.map_eq_singleton_iff.mp (Option.some.inj h).symm
    obtain ⟨rfl, hlead⟩ := Word.token_eq_word hw.symm
    exact Or.inr ⟨rfl, ha, hlead⟩
  · exact Or.inl hempty

/-- The words of the first argument and of those behind it. -/
theorem words_cons_cons {b : Text} {args : List Text} {ws : List Word} {atCommand : Bool}
    (h : (State.between atCommand).tokens (appendedArgs (a :: b :: args)) =
      some (ws.map .word)) :
    ws = [] ∨ ∃ others, ws = argWord a :: others ∧ (needsQuotes a = true ∨ ReadsAsWord a) ∧
      (atCommand && (argWord a).leads) = false ∧
      (State.between false).tokens (appendedArgs (b :: args)) = some (others.map .word) := by
  rw [appendedArgs_cons_cons] at h
  rcases readsAsWord_of_words h with ha | hempty
  · rw [tokens_shellEscape_blank ha] at h
    obtain ⟨ts, hts, hcons⟩ := Option.map_eq_some_iff.mp h
    cases ws with
    | nil => cases hcons
    | cons w others =>
        obtain ⟨hw, hothers⟩ := List.cons.inj hcons
        obtain ⟨rfl, hlead⟩ := Word.token_eq_word hw
        rw [hlead, hothers] at hts
        exact Or.inr ⟨others, rfl, ha, hlead, hts⟩
  · exact Or.inl hempty

/-- Arguments are never read as more words than there are arguments. -/
theorem length_le_of_tokens {args : List Text} {ws : List Word} {atCommand : Bool}
    (h : (State.between atCommand).tokens (appendedArgs args) = some (ws.map .word)) :
    ws.length ≤ args.length := by
  induction args generalizing ws atCommand with
  | nil =>
      have hempty : ([] : List Token) = ws.map .word := Option.some.inj h
      rw [List.map_eq_nil_iff.mp hempty.symm]
      exact Nat.zero_le _
  | cons a args ih =>
      cases args with
      | nil =>
          rcases words_singleton h with rfl | ⟨rfl, -⟩
          · exact Nat.zero_le _
          · exact Nat.le_refl 1
      | cons b args =>
          rcases words_cons_cons h with rfl | ⟨others, rfl, -, -, hothers⟩
          · exact Nat.zero_le _
          · exact Nat.succ_le_succ (ih hothers)

theorem leads_head {args : List Text} {atCommand : Bool}
    (h : (atCommand && (argWord a).leads) = false) :
    atCommand = true → ∀ b ∈ (a :: args).head?, (argWord b).leads = false := by
  intro hcommand b hb
  rw [← Option.some.inj hb]
  rwa [hcommand, Bool.true_and] at h

/-- An argument that is not read as a word ends the words or takes what follows away. -/
theorem forall_readsAsWord_of_tokens {args : List Text} {ws : List Word} {atCommand : Bool}
    (h : (State.between atCommand).tokens (appendedArgs args) = some (ws.map .word))
    (hargs : ws.length = args.length) :
    (∀ a ∈ args, needsQuotes a = true ∨ ReadsAsWord a) ∧
      (atCommand = true → ∀ a ∈ args.head?, (argWord a).leads = false) := by
  induction args generalizing ws atCommand with
  | nil => exact ⟨fun _ ha => absurd ha List.not_mem_nil, fun _ _ ha => absurd ha (by simp)⟩
  | cons a args ih =>
      have hsome : ws ≠ [] := by
        rintro rfl
        cases hargs
      cases args with
      | nil =>
          obtain ⟨-, ha, hlead⟩ := (words_singleton h).resolve_left hsome
          refine ⟨fun b hb => ?_, leads_head hlead⟩
          rw [List.mem_singleton.mp hb]
          exact ha
      | cons b args =>
          obtain ⟨others, rfl, ha, hlead, hothers⟩ := (words_cons_cons h).resolve_left hsome
          obtain ⟨hrest, -⟩ := ih hothers (Nat.succ.inj hargs)
          refine ⟨fun c hc => ?_, leads_head hlead⟩
          rcases List.mem_cons.mp hc with rfl | hc
          · exact ha
          · exact hrest c hc

/-- Behind a part of a word the first argument belongs to that word, so that there is a word
less than there are arguments. -/
theorem length_lt_of_word {args : List Text} (hargs : args ≠ []) {s : State} {w : Word}
    {token : Word → Token}
    (hcomplete : ∀ w', ∃ atCommand, s.complete w' = ([token w'], .between atCommand))
    (htoken : ∀ w' c, token w' ≠ .operator c) {ws : List Word}
    (h : (s.withMode (.word w)).tokens (appendedArgs args) =
      some ([token w] ++ ws.map .word)) : ws.length < args.length := by
  have hnone : ¬∃ c, Token.operator c ∈ [token w] ++ ws.map Token.word := by
    rintro ⟨c, hc⟩
    rcases List.mem_append.mp hc with hc | hc
    · exact htoken w c (List.mem_singleton.mp hc).symm
    · exact not_operator_mem_words ⟨c, hc⟩
  have hfirst : ∀ {a rest}, (s.withMode (.word w)).tokens (shellEscape a ++ rest) =
      some ([token w] ++ ws.map Token.word) → needsQuotes a = true ∨ WithoutParentheses a := by
    intro a rest h
    cases ha : needsQuotes a with
    | true => exact Or.inl rfl
    | false =>
        rw [shellEscape_of_plain ha] at h
        by_contra hnot
        have hparentheses : ¬WithoutParentheses a := fun hwithout => hnot (Or.inr hwithout)
        exact hnone (operator_mem_of_plain ha hparentheses (Or.inr ⟨w, rfl⟩) h)
  cases args with
  | nil => exact absurd rfl hargs
  | cons a args =>
      cases args with
      | nil =>
          rw [appendedArgs_singleton, ← List.append_nil (shellEscape a)] at h
          rw [tokens_word_shellEscape (hfirst h)] at h
          have hfinish : (s.withMode (.word (w ++ argWord a))).tokens [] =
              some [token (w ++ argWord a)] := by
            obtain ⟨atCommand, heq⟩ := hcomplete (w ++ argWord a)
            change ((if (s.complete (w ++ argWord a)).2.hereDocuments = [] then
              some (s.complete (w ++ argWord a)).1 else none).map ([] ++ ·)) = _
            rw [heq]
            rfl
          have hlength := congrArg List.length (Option.some.inj (hfinish.symm.trans h))
          rw [List.length_append, List.length_map] at hlength
          simp only [List.length_singleton] at hlength ⊢
          omega
      | cons b args =>
          rw [appendedArgs_cons_cons] at h
          obtain ⟨atCommand, heq⟩ := hcomplete (w ++ argWord a)
          rw [tokens_word_shellEscape (hfirst h), State.tokens_blank, heq] at h
          obtain ⟨ts, hts, hcons⟩ := Option.map_eq_some_iff.mp h
          have hws : ts = ws.map .word := (List.cons.inj hcons).2
          rw [hws] at hts
          exact Nat.lt_succ_of_le (length_le_of_tokens hts)

/-- A text that a shell takes for itself when it is not in quotes. -/
structure StandsForItself (a : Text) : Prop extends ReadsAsWord a where
  tilde : a.head? ≠ some '~'
  anyString : '*' ∉ a
  anyChar : '?' ∉ a
  bracket : ∀ before members after, a = before ++ '[' :: (members ++ ']' :: after) →
    members = [] ∨ '/' ∈ members

theorem standsForItself_iff (a : Text) :
    StandsForItself a ↔ ReadsAsWord a ∧ Literal (plainWord a) := by
  rw [Literal, tildePrefix_plainWord, hasPattern_plainWord]
  constructor
  · intro h
    refine ⟨h.toReadsAsWord, isSubstituted_plainWord a, h.tilde, ?_⟩
    rintro (hany | hany | ⟨before, members, after, heq, hmembers, hslash⟩)
    · exact h.anyString hany
    · exact h.anyChar hany
    · exact (h.bracket before members after heq).elim hmembers hslash
  · rintro ⟨hreads, -, htilde, hpattern⟩
    refine ⟨hreads, htilde, fun h => hpattern (Or.inl h), fun h => hpattern (Or.inr (Or.inl h)), ?_⟩
    intro before members after heq
    by_contra hnot
    rw [not_or] at hnot
    exact hpattern (Or.inr (Or.inr ⟨before, members, after, heq, hnot⟩))

/-- Between two words, the arguments come back exactly when each of them is in quotes or
stands for itself, and none takes the place of a command's name without being one. -/
theorem expand_appendedArgs_iff (args : List Text) (atCommand : Bool) :
    (∃ ws : List Word,
      (State.between atCommand).tokens (appendedArgs args) = some (ws.map .word) ∧
      ∀ env : Environment, ws.flatMap env.expand = args) ↔
      (∀ a ∈ args, needsQuotes a = true ∨ StandsForItself a) ∧
        (atCommand = true → ∀ a ∈ args.head?, (argWord a).leads = false) := by
  simp only [expand_eq_iff]
  constructor
  · rintro ⟨ws, hws, hargs, hliteral⟩
    have hlength : ws.length = args.length := by rw [← hargs, List.length_map]
    obtain ⟨hreads, hlead⟩ := forall_readsAsWord_of_tokens hws hlength
    have heq := Option.some.inj ((tokens_appendedArgs hreads hlead).symm.trans hws)
    obtain rfl := List.map_injective_iff.mpr (fun _ _ => Token.word.inj) heq
    refine ⟨fun a ha => ?_, hlead⟩
    have hword := hliteral _ (List.mem_map_of_mem ha)
    cases hquotes : needsQuotes a with
    | true => exact Or.inl rfl
    | false =>
        have hplain := (hreads a ha).resolve_left (by rw [hquotes]; exact Bool.false_ne_true)
        rw [argWord_of_plain hquotes] at hword
        exact Or.inr ((standsForItself_iff a).mpr ⟨hplain, hword⟩)
  · rintro ⟨h, hlead⟩
    have hreads : ∀ a ∈ args, needsQuotes a = true ∨ ReadsAsWord a := fun a ha =>
      (h a ha).imp_right StandsForItself.toReadsAsWord
    refine ⟨args.map argWord, tokens_appendedArgs hreads hlead, ?_, ?_⟩
    · rw [List.map_map]
      exact (List.map_congr_left fun a _ => text_argWord a).trans (List.map_id args)
    · intro w hw
      obtain ⟨a, ha, rfl⟩ := List.mem_map.mp hw
      unfold argWord
      split
      · exact literal_quotedWord a
      · rename_i hquotes
        exact ((standsForItself_iff a).mp ((h a ha).resolve_left hquotes)).2

/-- What a script and its arguments have to be for the shell to read the arguments back: the
script ends between two words, and if the name of a command is to come there, the first
argument is neither an assignment nor a reserved word; and every argument is put into quotes or
stands for itself. -/
structure Passes (before : Text) (args : List Text) : Prop where
  between : ∃ atCommand, (State.start.read before).2 = .between atCommand ∧
    (atCommand = true → ∀ a ∈ args.head?, (argWord a).leads = false)
  standsForItself : ∀ a ∈ args, needsQuotes a = true ∨ StandsForItself a

theorem addsArguments_iff {before : Text} {args : List Text} (hargs : args ≠ []) :
    AddsArguments before (appendedArgs args) args ↔ Passes before args := by
  constructor
  · rintro ⟨front, ws, hfront, hline, hexpand⟩
    have hlength : ws.length = args.length := by
      rw [← (expand_eq_iff.mp hexpand).1, List.length_map]
    obtain ⟨last, hlast, rfl⟩ := Option.map_eq_some_iff.mp hfront
    rw [State.tokens_append] at hline
    obtain ⟨ts, hts, heq⟩ := Option.map_eq_some_iff.mp hline
    rw [List.append_assoc] at heq
    rw [List.append_cancel_left heq] at hts
    rcases State.finish_eq_some hlast with ⟨atCommand, hbetween, rfl⟩ | ⟨s, hcomment, rfl⟩ |
      ⟨w, token, hword, rfl, hcomplete, htoken⟩
    · rw [hbetween] at hts
      obtain ⟨hstands, hlead⟩ := (expand_appendedArgs_iff args atCommand).mp ⟨ws, hts, hexpand⟩
      exact ⟨⟨atCommand, hbetween, hlead⟩, hstands⟩
    · rw [hcomment] at hts
      rcases State.tokens_comment hts with hempty | hoperator
      · rw [List.map_eq_nil_iff.mp hempty] at hlength
        exact absurd (List.length_eq_zero_iff.mp hlength.symm) hargs
      · exact absurd hoperator not_operator_mem_words
    · rw [hword] at hts
      exact absurd hlength (Nat.ne_of_lt (length_lt_of_word hargs hcomplete htoken hts))
  · rintro ⟨⟨atCommand, hbetween, hlead⟩, hstands⟩
    obtain ⟨ws, hws, hexpand⟩ := (expand_appendedArgs_iff args atCommand).mpr ⟨hstands, hlead⟩
    refine ⟨(State.start.read before).1, ws, ?_, ?_, hexpand⟩
    · rw [State.tokens, hbetween]
      exact congrArg some (List.append_nil _)
    · rw [State.tokens_append, hbetween, hws]
      rfl

end Escape

section Trim

theorem trimStart_append {s t : Text} (ht : ∀ c ∈ t.head?, isWhitespace c = false) :
    trimStart (s ++ t) = trimStart s ++ t := by
  have hkeep : t.dropWhile isWhitespace = t := by
    cases t with
    | nil => rfl
    | cons c t =>
        have hc := ht c rfl
        exact List.dropWhile_cons_of_neg (by rw [hc]; exact Bool.false_ne_true)
  rw [trimStart, trimStart, List.dropWhile_append, hkeep]
  split
  · rename_i hempty
    rw [List.isEmpty_iff.mp hempty, List.nil_append]
  · rfl

theorem trimEnd_append {s t : Text} (hne : t ≠ []) (ht : ∀ c ∈ t.getLast?, isWhitespace c = false) :
    trimEnd (s ++ t) = s ++ t := by
  have hlast : isWhitespace (t.getLast hne) = false :=
    ht _ (List.getLast?_eq_some_getLast hne)
  rw [← List.dropLast_append_getLast hne, ← List.append_assoc, trimEnd, List.reverse_append,
    List.reverse_singleton, List.singleton_append,
    List.dropWhile_cons_of_neg (by rw [hlast]; exact Bool.false_ne_true),
    List.reverse_cons, List.reverse_reverse]

/-- An escaped argument has no white space at its ends. -/
theorem shellEscape_ends (a : Text) : shellEscape a ≠ [] ∧
    (∀ c ∈ (shellEscape a).head?, isWhitespace c = false) ∧
    ∀ c ∈ (shellEscape a).getLast?, isWhitespace c = false := by
  unfold shellEscape
  split
  · refine ⟨List.cons_ne_nil _ _, ?_, ?_⟩
    · rintro c hc
      obtain rfl := Option.some.inj hc
      rfl
    · rw [← List.cons_append, List.getLast?_concat]
      rintro c hc
      obtain rfl := Option.some.inj hc
      rfl
  · rename_i hquotes
    have hplain := Bool.eq_false_iff.mpr hquotes
    rw [needsQuotes, Bool.or_eq_false_iff, List.any_eq_false] at hplain
    have hall : ∀ c ∈ a, isWhitespace c = false := fun c hc => by
      have := hplain.2 c hc
      rw [Bool.or_eq_true, not_or] at this
      exact Bool.eq_false_iff.mpr this.1
    refine ⟨?_, fun c hc => hall c (List.mem_of_mem_head? hc),
      fun c hc => hall c (List.mem_of_getLast? hc)⟩
    rintro rfl
    exact absurd hplain.1 (by decide)

theorem appendedArgs_ends {args : List Text} (hargs : args ≠ []) : appendedArgs args ≠ [] ∧
    (∀ c ∈ (appendedArgs args).head?, isWhitespace c = false) ∧
    ∀ c ∈ (appendedArgs args).getLast?, isWhitespace c = false := by
  induction args with
  | nil => exact absurd rfl hargs
  | cons a args ih =>
      obtain ⟨hne, hhead, hlast⟩ := shellEscape_ends a
      cases args with
      | nil =>
          rw [appendedArgs_singleton]
          exact ⟨hne, hhead, hlast⟩
      | cons b args =>
          obtain ⟨hne', -, hlast'⟩ := ih (List.cons_ne_nil _ _)
          rw [appendedArgs_cons_cons, List.head?_append_of_ne_nil _ hne,
            Text.getLast?_append_cons _ _ hne']
          exact ⟨List.append_ne_nil_of_left_ne_nil hne _, hhead, hlast'⟩

/-- Trimming the command line leaves the arguments alone. -/
theorem commandLine_eq (script : Text) (args : List Text) :
    commandLine script args = scriptPart script args ++ appendedArgs args := by
  cases args with
  | nil => exact (List.append_nil _).symm
  | cons a args =>
      obtain ⟨hne, hhead, hlast⟩ := appendedArgs_ends (List.cons_ne_nil a args)
      rw [commandLine, trim, List.append_cons, trimStart_append hhead, trimEnd_append hne hlast]
      rfl

end Trim

section Run

variable {manifest : PackageManifest} {baseDir command : Text} {args : List Text}
  {ifPresent : Bool} {spawned : SpawnedCommand}

def echoManifest : PackageManifest :=
  ⟨.object (.ofList [("scripts".toList, .object (.ofList [("say".toList,
    .string "echo".toList), ("run".toList, .string "tsc && node $(pwd)/x.js".toList),
    ("note".toList, .string "echo # say".toList)]))])⟩

end Run

end Npnpm
