import Npnpm.Library.Results
import Npnpm.Library.Text

/-!
# Words of a shell

How a POSIX shell divides a text into words and operators and what the words expand to. The
characters of a word remember whether they are quoted, because only unquoted ones have an
effect in the expansions that follow.

## Implementation notes

The reader goes on past operators, here-documents and substitutions, since the words behind
them are read by the same rules. The text of a substitution stays in its word; what it gives,
like home directories and the files that a pattern finds, belongs to the environment. Inside
of `$(` and `)` every parenthesis counts, also that of a case pattern, and here-documents are
not looked for. Of the grammar there is only what changes a word: where the name of a command is
still to come, an assignment or a reserved word is not one of its words.
-/

namespace Npnpm.Shell

/-- How a character of a word is written. -/
inductive Quoting
  | plain
  | quoted
  | substituted
deriving DecidableEq

structure WordChar where
  char : Char
  quoting : Quoting
deriving DecidableEq

abbrev Word := List WordChar

def Word.text (w : Word) : Text := w.map WordChar.char

def quotedWord (s : Text) : Word := s.map fun c => ⟨c, .quoted⟩

def plainWord (s : Text) : Word := s.map fun c => ⟨c, .plain⟩

@[simp] theorem text_quotedWord (s : Text) : (quotedWord s).text = s := by
  simp [Word.text, quotedWord, Function.comp_def]

@[simp] theorem text_plainWord (s : Text) : (plainWord s).text = s := by
  simp [Word.text, plainWord, Function.comp_def]

/-- The digits, letters and underscores of a portable name. -/
def isName (s : Text) : Bool :=
  !s.isEmpty && s.all (fun c => c.isAlphanum || c == '_') && !s.head?.any Char.isDigit

def reservedWords : List Text :=
  ["!", "\x7b", "\x7d", "case", "do", "done", "elif", "else", "esac", "fi", "for", "if", "in",
    "then", "until", "while"].map String.toList

def Word.isPlain (w : Word) : Bool := w.all fun c => c.quoting = .plain

def Word.isAssignment (w : Word) : Bool :=
  let name : Word := w.takeWhile fun c => c != ⟨'=', .plain⟩
  name.isPlain && isName name.text && decide (name.length < w.length)

/-- A word that the name of a command still follows. -/
def Word.leads (w : Word) : Bool := w.isAssignment || (w.isPlain && w.text ∈ reservedWords)

/-- The target of a redirection is not an argument. -/
inductive Token
  | word (w : Word)
  | lead (w : Word)
  | target (w : Word)
  | operator (c : Char)
deriving DecidableEq

/-- What the text of a substitution is inside of. -/
inductive Nesting
  | escape
  | single
  | double
  | backquote
  | dollar (quoted : Bool)
  | braces (quoted : Bool)
  | commands (atWord : Bool)
  | comment
deriving DecidableEq

def isBlank (c : Char) : Bool := c == ' ' || c == '\t'

def isOperator (c : Char) : Bool := c ∈ ['&', ';', '|', '<', '>', '(', ')', '\n']

def isSubstitution (c : Char) : Bool := c == '$' || c == '\x60'

/-- What a character opens inside of a substitution. -/
def opened (quoted : Bool) (c : Char) : List Nesting :=
  if c = '\\' then [.escape]
  else if c = '$' then [.dollar quoted]
  else if c = '\x60' then [.backquote]
  else if c = '"' then [.double]
  else if c = '\'' && !quoted then [.single]
  else []

/-- Read one character of a substitution. -/
def nest : List Nesting → Char → List Nesting
  | [], _ => []
  | .escape :: outer, _ => outer
  | .single :: outer, c => if c = '\'' then outer else .single :: outer
  | .double :: outer, c => if c = '"' then outer else opened true c ++ .double :: outer
  | .backquote :: outer, c =>
      if c = '\x60' then outer
      else if c = '\\' then .escape :: .backquote :: outer
      else .backquote :: outer
  | .dollar quoted :: outer, c =>
      if c = '(' then .commands true :: outer
      else if c = '{' then .braces quoted :: outer
      else if c = '$' then outer
      else nest outer c
  | .braces quoted :: outer, c =>
      if c = '}' then outer else opened quoted c ++ .braces quoted :: outer
  | .commands atWord :: outer, c =>
      if c = ')' then outer
      else if c = '(' then .commands true :: .commands true :: outer
      else if c = '#' && atWord then .comment :: .commands true :: outer
      else opened false c ++ .commands (isBlank c || isOperator c) :: outer
  | .comment :: outer, c => if c = '\n' then outer else .comment :: outer

/-- What the reader is in, with the word that it has read so far. -/
inductive Mode
  | between
  | comment
  | word (read : Word)
  | single (read : Word)
  | double (read : Word)
  | escape (read : Option Word)
  | doubleEscape (read : Word)
  | substitution (nesting : List Nesting) (quoted : Bool) (read : Word)
  | less
  | lessLess
  | greater
  | hereDocument (line : Text)
deriving DecidableEq

/-- What the next word is for. -/
inductive Role
  | argument
  | target
  | delimiter (stripTabs : Bool)
deriving DecidableEq

structure HereDocument where
  stripTabs : Bool
  quoted : Bool
  delimiter : Text
deriving DecidableEq

def HereDocument.endsAt (document : HereDocument) (line : Text) : Bool :=
  (if document.stripTabs then line.dropWhile (· = '\t') else line) = document.delimiter

def HereDocument.continues (document : HereDocument) (line : Text) : Bool :=
  !document.quoted && (line.reverse.takeWhile (· = '\\')).length % 2 == 1

/-- The here-documents whose text comes after the line are in the order of their operators. -/
structure State where
  mode : Mode
  role : Role
  /-- Whether the name of the command is still to come. -/
  atCommand : Bool
  hereDocuments : List HereDocument
deriving DecidableEq

def State.between (atCommand : Bool) : State := ⟨.between, .argument, atCommand, []⟩

def State.start : State := .between true

def State.withMode (s : State) (mode : Mode) : State := { s with mode }

def State.goTo (s : State) (mode : Mode) : List Token × State := ([], s.withMode mode)

/-- The word is complete. -/
def State.complete (s : State) (w : Word) : List Token × State :=
  match s.role with
  | .argument =>
      if s.atCommand && w.leads then
        ([.lead w], ⟨.between, .argument, true, s.hereDocuments⟩)
      else ([.word w], ⟨.between, .argument, false, s.hereDocuments⟩)
  | .target => ([.target w], ⟨.between, .argument, s.atCommand, s.hereDocuments⟩)
  | .delimiter stripTabs =>
      ([.target w], ⟨.between, .argument, s.atCommand, s.hereDocuments ++
        [⟨stripTabs, w.any fun c => c.quoting = .quoted, w.text⟩]⟩)

/-- An operator between two words. The texts of the here-documents begin behind the line. -/
def State.operator (s : State) (c : Char) : List Token × State :=
  ([.operator c],
    if c = '<' then ⟨.less, .target, s.atCommand, s.hereDocuments⟩
    else if c = '>' then ⟨.greater, .target, s.atCommand, s.hereDocuments⟩
    else if c = '\n' && !s.hereDocuments.isEmpty then
      ⟨.hereDocument [], .argument, true, s.hereDocuments⟩
    else ⟨.between, .argument, true, s.hereDocuments⟩)

/-- The end of a line of a here-document. -/
def State.endLine (s : State) (line : Text) : State :=
  match s.hereDocuments with
  | [] => .start
  | document :: others =>
      if document.continues line then s.withMode (.hereDocument line.dropLast)
      else if document.endsAt line then
        ⟨if others.isEmpty then .between else .hereDocument [], .argument, true, others⟩
      else s.withMode (.hereDocument [])

/-- A character outside of quotes that does not end the word. -/
def inWord (read : Word) (c : Char) : Mode :=
  if c = '\'' then .single read
  else if c = '"' then .double read
  else if c = '$' then .substitution [.dollar false] false (read ++ [⟨c, .substituted⟩])
  else if c = '\x60' then .substitution [.backquote] false (read ++ [⟨c, .substituted⟩])
  else .word (read ++ [⟨c, .plain⟩])

/-- A character between double quotes. -/
def inDouble (read : Word) (c : Char) : Mode :=
  if c = '"' then .word read
  else if c = '\\' then .doubleEscape read
  else if c = '$' then .substitution [.dollar true] true (read ++ [⟨c, .substituted⟩])
  else if c = '\x60' then .substitution [.backquote] true (read ++ [⟨c, .substituted⟩])
  else .double (read ++ [⟨c, .quoted⟩])

def State.stepBetween (s : State) (c : Char) : List Token × State :=
  if isBlank c then s.goTo .between
  else if isOperator c then s.operator c
  else if c = '#' then s.goTo .comment
  else if c = '\\' then s.goTo (.escape none)
  else s.goTo (inWord [] c)

def State.stepWord (s : State) (read : Word) (c : Char) : List Token × State :=
  if isBlank c then s.complete read
  else if isOperator c then
    let (completed, s) := s.complete read
    let (operator, s) := s.operator c
    (completed ++ operator, s)
  else if c = '\\' then s.goTo (.escape (some read))
  else s.goTo (inWord read c)

/-- Read one character: the tokens that it completes, and what follows. -/
def State.step (s : State) (c : Char) : List Token × State :=
  match s.mode with
  | .between => s.stepBetween c
  | .comment => if c = '\n' then s.operator c else s.goTo .comment
  | .word read => s.stepWord read c
  | .single read =>
      s.goTo (if c = '\'' then .word read else .single (read ++ [⟨c, .quoted⟩]))
  | .double read => s.goTo (inDouble read c)
  -- a line that is continued leaves nothing behind
  | .escape read =>
      s.goTo (if c = '\n' then read.elim .between .word
        else .word (read.getD [] ++ [⟨c, .quoted⟩]))
  | .doubleEscape read =>
      s.goTo (if c = '\n' then .double read
        else if isSubstitution c || c == '"' || c == '\\' then .double (read ++ [⟨c, .quoted⟩])
        else .double (read ++ [⟨'\\', .quoted⟩, ⟨c, .quoted⟩]))
  | .substitution nesting quoted read =>
      -- a dollar sign in front of a name or of any other character needs no end
      if nesting = [.dollar quoted] ∧ c ∉ ['(', '{', '$'] then
        if quoted then s.goTo (inDouble read c) else s.stepWord read c
      else
        let read := read ++ [⟨c, .substituted⟩]
        let nesting := nest nesting c
        s.goTo (if nesting = [] then (if quoted then .double read else .word read)
          else .substitution nesting quoted read)
  | .less =>
      if c = '<' then
        ([.operator c], ⟨.lessLess, .delimiter false, s.atCommand, s.hereDocuments⟩)
      else if c = '&' ∨ c = '>' then
        ([.operator c], ⟨.between, .target, s.atCommand, s.hereDocuments⟩)
      else s.stepBetween c
  | .lessLess =>
      if c = '-' then
        ([.operator c], ⟨.between, .delimiter true, s.atCommand, s.hereDocuments⟩)
      else s.stepBetween c
  | .greater =>
      if c ∈ ['>', '&', '|'] then
        ([.operator c], ⟨.between, .target, s.atCommand, s.hereDocuments⟩)
      else s.stepBetween c
  | .hereDocument line =>
      if c = '\n' then ([], s.endLine line) else s.goTo (.hereDocument (line ++ [c]))

/-- At the end of the text nothing may be left open: no quotes, no substitution, no escape, no
redirection and no here-document. -/
def State.finish (s : State) : Option (List Token) :=
  match s.mode with
  | .between | .comment => if s.role = .argument ∧ s.hereDocuments = [] then some [] else none
  | .word w => if (s.complete w).2.hereDocuments = [] then some (s.complete w).1 else none
  | _ => none

/-- The tokens that a text completes, and the state after it. -/
def State.read : State → Text → List Token × State
  | s, [] => ([], s)
  | s, c :: rest =>
      let (completed, s) := s.step c
      let (others, s) := s.read rest
      (completed ++ others, s)

/-- The tokens of a text. -/
def State.tokens (s : State) (text : Text) : Option (List Token) :=
  (s.read text).2.finish.map ((s.read text).1 ++ ·)

section Read

variable {s s' : State} {c : Char} {text rest : Text} {ts : List Token} {w : Word}

theorem State.read_cons (s : State) (c : Char) (rest : Text) :
    s.read (c :: rest) = ((s.step c).1 ++ ((s.step c).2.read rest).1,
      ((s.step c).2.read rest).2) := rfl

theorem State.read_append (s : State) (text rest : Text) :
    s.read (text ++ rest) = ((s.read text).1 ++ ((s.read text).2.read rest).1,
      ((s.read text).2.read rest).2) := by
  induction text generalizing s with
  | nil => rfl
  | cons c text ih =>
      rw [List.cons_append, State.read_cons, State.read_cons, ih, List.append_assoc]

/-- A text is read on from the state that the text before it leaves. -/
theorem State.tokens_append (s : State) (text rest : Text) :
    s.tokens (text ++ rest) =
      ((s.read text).2.tokens rest).map ((s.read text).1 ++ ·) := by
  rw [State.tokens, State.tokens, State.read_append, Option.map_map]
  exact congrArg (Option.map · _) (funext fun ts => List.append_assoc _ _ ts)

theorem State.tokens_cons {completed : List Token} (h : s.step c = (completed, s')) :
    s.tokens (c :: rest) = (s'.tokens rest).map (completed ++ ·) := by
  have hread : s.read [c] = (completed, s') := by
    rw [State.read_cons, h]
    exact congrArg (·, s') (List.append_nil completed)
  rw [← List.singleton_append, State.tokens_append, hread]

theorem State.tokens_step (h : s.step c = ([], s')) :
    s.tokens (c :: rest) = s'.tokens rest := by
  rw [State.tokens_cons h]
  exact Option.map_id'

/-- A blank ends a word. -/
theorem State.tokens_blank (s : State) (w : Word) (rest : Text) :
    (s.withMode (.word w)).tokens (' ' :: rest) =
      ((s.complete w).2.tokens rest).map ((s.complete w).1 ++ ·) :=
  State.tokens_cons rfl

theorem State.mem_tokens_cons {token : Token} (htoken : token ∈ (s.step c).1)
    (h : s.tokens (c :: rest) = some ts) : token ∈ ts := by
  have hstep : s.step c = ((s.step c).1, (s.step c).2) := rfl
  rw [State.tokens_cons hstep] at h
  obtain ⟨others, -, rfl⟩ := Option.map_eq_some_iff.mp h
  exact List.mem_append_left _ htoken

/-- A comment goes on to the end, or to the end of the line. -/
theorem State.tokens_comment (h : (s.withMode .comment).tokens rest = some ts) :
    ts = [] ∨ ∃ c, Token.operator c ∈ ts := by
  induction rest with
  | nil =>
      obtain ⟨last, hfinish, rfl⟩ := Option.map_eq_some_iff.mp h
      left
      change (if s.role = .argument ∧ s.hereDocuments = [] then some [] else none) = some last
        at hfinish
      split at hfinish
      · rw [← Option.some.inj hfinish]
        rfl
      · cases hfinish
  | cons c rest ih =>
      by_cases hc : c = '\n'
      · rw [hc] at h
        exact Or.inr ⟨'\n', State.mem_tokens_cons List.mem_cons_self h⟩
      · have hstep : (s.withMode .comment).step c = ([], s.withMode .comment) :=
          if_neg hc
        rw [State.tokens_step hstep] at h
        exact ih h

/-- A character that stands for itself outside of quotes, unless it begins a comment. -/
def ordinary (c : Char) : Bool :=
  !isBlank c && !isOperator c && !isSubstitution c && c != '\\' && c != '\'' && c != '"'

theorem inWord_ordinary (hc : ordinary c = true) (w : Word) :
    inWord w c = .word (w ++ [⟨c, .plain⟩]) := by
  simp only [ordinary, isSubstitution, Bool.and_eq_true, Bool.not_eq_true', bne_iff_ne,
    Bool.or_eq_false_iff, beq_eq_false_iff_ne] at hc
  simp [inWord, hc]

theorem State.step_word_ordinary (hc : ordinary c = true) (s : State) (w : Word) :
    (s.withMode (.word w)).step c = ([], s.withMode (.word (w ++ [⟨c, .plain⟩]))) := by
  have hword := inWord_ordinary hc w
  simp only [ordinary, Bool.and_eq_true, Bool.not_eq_true', bne_iff_ne] at hc
  obtain ⟨⟨⟨⟨⟨hblank, hoperator⟩, -⟩, hescape⟩, -⟩, -⟩ := hc
  change (s.withMode (.word w)).stepWord w c = _
  simp only [State.stepWord, hblank, hoperator, hescape, hword, Bool.false_eq_true, if_false]
  rfl

theorem State.step_between_ordinary (hc : ordinary c = true) (hcomment : c ≠ '#') (s : State) :
    (s.withMode .between).step c = ([], s.withMode (.word [⟨c, .plain⟩])) := by
  have hword := inWord_ordinary hc []
  simp only [ordinary, Bool.and_eq_true, Bool.not_eq_true', bne_iff_ne] at hc
  obtain ⟨⟨⟨⟨⟨hblank, hoperator⟩, -⟩, hescape⟩, -⟩, -⟩ := hc
  change (s.withMode .between).stepBetween c = _
  simp only [State.stepBetween, hblank, hoperator, hcomment, hescape, hword, Bool.false_eq_true,
    if_false]
  rfl

theorem State.tokens_ordinary (htext : ∀ c ∈ text, ordinary c = true) (s : State) (w : Word)
    (rest : Text) :
    (s.withMode (.word w)).tokens (text ++ rest) =
      (s.withMode (.word (w ++ plainWord text))).tokens rest := by
  induction text generalizing w with
  | nil => rw [List.nil_append, plainWord, List.map_nil, List.append_nil]
  | cons c text ih =>
      rw [List.cons_append,
        State.tokens_step (State.step_word_ordinary (htext c List.mem_cons_self) s w),
        ih (fun c hc => htext c (List.mem_cons_of_mem _ hc)), List.append_assoc]
      rfl

/-- Ordinary characters between words begin a word. -/
theorem State.tokens_between_ordinary (htext : ∀ c ∈ text, ordinary c = true) (hne : text ≠ [])
    (hcomment : text.head? ≠ some '#') (s : State) (rest : Text) :
    (s.withMode .between).tokens (text ++ rest) =
      (s.withMode (.word (plainWord text))).tokens rest := by
  cases text with
  | nil => exact absurd rfl hne
  | cons c text =>
      have hc : c ≠ '#' := fun hc => hcomment (by rw [hc]; rfl)
      rw [List.cons_append,
        State.tokens_step (State.step_between_ordinary (htext c List.mem_cons_self) hc s),
        State.tokens_ordinary fun c hc => htext c (List.mem_cons_of_mem _ hc)]
      rfl

def isParenthesis (c : Char) : Bool := c == '(' || c == ')'

/-- A parenthesis behind ordinary characters is an operator. -/
theorem State.operator_mem_of_parenthesis
    (htext : ∀ c ∈ text, isParenthesis c = false → ordinary c = true)
    (hparenthesis : ∃ c ∈ text, isParenthesis c = true) {mode : Mode}
    (hmode : (mode = .between ∧ text.head? ≠ some '#') ∨ ∃ w, mode = .word w)
    (h : (s.withMode mode).tokens (text ++ rest) = some ts) : ∃ c, Token.operator c ∈ ts := by
  induction text generalizing mode with
  | nil =>
      obtain ⟨c, hc, -⟩ := hparenthesis
      cases hc
  | cons c text ih =>
      by_cases hc : isParenthesis c = true
      · refine ⟨c, State.mem_tokens_cons ?_ h⟩
        have hcases : c = '(' ∨ c = ')' := by simpa [isParenthesis] using hc
        rcases hmode with ⟨rfl, -⟩ | ⟨w, rfl⟩
        · rcases hcases with rfl | rfl
          all_goals exact List.mem_cons_self
        · rcases hcases with rfl | rfl
          all_goals exact List.mem_append_right _ List.mem_cons_self
      · have hordinary := htext c List.mem_cons_self (Bool.eq_false_iff.mpr hc)
        have hstep : ∃ w, (s.withMode mode).step c = ([], s.withMode (.word w)) := by
          rcases hmode with ⟨rfl, hcomment⟩ | ⟨w, rfl⟩
          · have hne : c ≠ '#' := fun hc => hcomment (by rw [hc]; rfl)
            exact ⟨_, State.step_between_ordinary hordinary hne s⟩
          · exact ⟨_, State.step_word_ordinary hordinary s w⟩
        obtain ⟨w, hstep⟩ := hstep
        rw [List.cons_append, State.tokens_step hstep] at h
        have hlater : ∃ c ∈ text, isParenthesis c = true := by
          obtain ⟨d, hd, hparenthesis⟩ := hparenthesis
          rcases List.mem_cons.mp hd with rfl | hd
          · exact absurd hparenthesis hc
          · exact ⟨d, hd, hparenthesis⟩
        exact ih (fun d hd => htext d (List.mem_cons_of_mem _ hd)) hlater (Or.inr ⟨w, rfl⟩) h

/-- What a word becomes where the name of a command may still be to come. -/
def Word.token (w : Word) (atCommand : Bool) : Token :=
  if atCommand && w.leads then .lead w else .word w

theorem Word.token_ne_operator (w : Word) (atCommand : Bool) (c : Char) :
    w.token atCommand ≠ .operator c := by
  unfold Word.token
  split
  · exact Token.noConfusion
  · exact Token.noConfusion

theorem Word.token_eq_word {w' : Word} {atCommand : Bool}
    (h : w.token atCommand = .word w') : w = w' ∧ (atCommand && w.leads) = false := by
  unfold Word.token at h
  split at h
  · cases h
  · rename_i hlead
    exact ⟨Token.word.inj h, Bool.eq_false_iff.mpr hlead⟩

theorem State.complete_argument (h : s.role = .argument) (w : Word) :
    s.complete w = ([w.token s.atCommand],
      ⟨.between, .argument, s.atCommand && w.leads, s.hereDocuments⟩) := by
  unfold State.complete Word.token
  rw [h]
  cases s.atCommand && w.leads with
  | true => rfl
  | false => rfl

/-- Where a text may end: between two words, in a comment, or behind a word that a blank would
complete. -/
theorem State.finish_eq_some {last : List Token} (h : s.finish = some last) :
    (∃ atCommand, s = .between atCommand ∧ last = []) ∨
      (∃ s' : State, s = s'.withMode .comment ∧ last = []) ∨
      ∃ (w : Word) (token : Word → Token), s = s.withMode (.word w) ∧ last = [token w] ∧
        (∀ w', ∃ atCommand, s.complete w' = ([token w'], .between atCommand)) ∧
        ∀ w' c, token w' ≠ .operator c := by
  obtain ⟨mode, role, atCommand, documents⟩ := s
  cases mode with
  | between =>
      change (if role = .argument ∧ documents = [] then some [] else none) = some last at h
      split at h
      · rename_i hstart
        obtain ⟨rfl, rfl⟩ := hstart
        exact Or.inl ⟨atCommand, rfl, (Option.some.inj h).symm⟩
      · cases h
  | comment =>
      change (if role = .argument ∧ documents = [] then some [] else none) = some last at h
      split at h
      · exact Or.inr (Or.inl ⟨⟨.comment, role, atCommand, documents⟩, rfl,
          (Option.some.inj h).symm⟩)
      · cases h
  | word w =>
      right
      right
      change (if ((⟨.word w, role, atCommand, documents⟩ : State).complete w).2.hereDocuments = []
        then some ((⟨.word w, role, atCommand, documents⟩ : State).complete w).1 else none) =
          some last at h
      split at h
      · rename_i hdocuments
        cases role with
        | argument =>
            have hcomplete : ∀ w',
                (⟨.word w, .argument, atCommand, documents⟩ : State).complete w' =
                  ([w'.token atCommand],
                    ⟨.between, .argument, atCommand && w'.leads, documents⟩) :=
              State.complete_argument rfl
            rw [hcomplete] at hdocuments h
            obtain rfl : documents = [] := hdocuments
            exact ⟨w, fun w' => w'.token atCommand, rfl, (Option.some.inj h).symm,
              fun w' => ⟨_, hcomplete w'⟩, fun w' => w'.token_ne_operator atCommand⟩
        | target =>
            obtain rfl : documents = [] := hdocuments
            refine ⟨w, .target, rfl, (Option.some.inj h).symm, fun _ => ⟨atCommand, rfl⟩, ?_⟩
            intro _ _ htoken
            cases htoken
        | delimiter stripTabs =>
            exact absurd hdocuments (List.append_ne_nil_of_right_ne_nil documents
              (List.cons_ne_nil _ _))
      · cases h
  | _ => cases h

end Read

/-- The login name after an unquoted tilde and the rest of the word. -/
def tildePrefix : Word → Option (Text × Word)
  | ⟨'~', .plain⟩ :: rest =>
      let login : Word := rest.takeWhile fun c => c != ⟨'/', .plain⟩
      if login.any fun c => c.quoting ≠ .plain then none
      else some (login.text, rest.drop login.length)
  | _ => none

/-- A path that a word finds as a pattern. Which characters a bracket expression stands for
depends on the locale, so any character will do. -/
inductive Finds : Word → Text → Prop
  | nil : Finds [] []
  | char (c : WordChar) {w : Word} {path : Text} (h : Finds w path) :
      Finds (c :: w) (c.char :: path)
  | anyString (s : Text) (hs : '/' ∉ s) {w : Word} {path : Text} (h : Finds w path) :
      Finds (⟨'*', .plain⟩ :: w) (s ++ path)
  | anyChar (c : Char) (hc : c ≠ '/') {w : Word} {path : Text} (h : Finds w path) :
      Finds (⟨'?', .plain⟩ :: w) (c :: path)
  | bracket (members : Word) (hmembers : members ≠ []) (hslash : '/' ∉ members.text) (c : Char)
      (hc : c ≠ '/') {w : Word} {path : Text} (h : Finds w path) :
      Finds (⟨'[', .plain⟩ :: (members ++ ⟨']', .plain⟩ :: w)) (c :: path)

/-- The word begins with a part that finds something else than itself. -/
inductive StartsPattern : Word → Prop
  | anyString (w : Word) : StartsPattern (⟨'*', .plain⟩ :: w)
  | anyChar (w : Word) : StartsPattern (⟨'?', .plain⟩ :: w)
  | bracket (members w : Word) (hmembers : members ≠ []) (hslash : '/' ∉ members.text) :
      StartsPattern (⟨'[', .plain⟩ :: (members ++ ⟨']', .plain⟩ :: w))

def HasPattern (w : Word) : Prop := ∃ before after, w = before ++ after ∧ StartsPattern after

/-- What a shell finds around it. -/
structure Environment where
  substitution : Word → List Text
  home : Text → Option Text
  pathnames : Word → List Text
  finds : ∀ w, ∀ path ∈ pathnames w, Finds w path
  nodup : ∀ w, (pathnames w).Nodup

/-- An unknown login name leaves the word as it is. -/
def Environment.expandTilde (env : Environment) (w : Word) : Word :=
  match tildePrefix w with
  | none => w
  | some (login, rest) =>
      match env.home login with
      | none => w
      | some directory => quotedWord directory ++ rest

def Word.isSubstituted (w : Word) : Bool := w.any fun c => c.quoting = .substituted

/-- A pattern that finds no path stays as it is. -/
def Environment.expand (env : Environment) (w : Word) : List Text :=
  if w.isSubstituted then env.substitution w
  else
    match env.pathnames (env.expandTilde w) with
    | [] => [(env.expandTilde w).text]
    | paths => paths

/-- Every environment leaves the word as it is. -/
def Literal (w : Word) : Prop :=
  w.isSubstituted = false ∧ tildePrefix w = none ∧ ¬HasPattern w

/-- Behind a text, an appended one adds the arguments to what the shell reads, and nothing
else. -/
def AddsArguments (before appended : Text) (args : List Text) : Prop :=
  ∃ (front : List Token) (ws : List Word), State.start.tokens before = some front ∧
    State.start.tokens (before ++ appended) = some (front ++ ws.map .word) ∧
    ∀ env : Environment, ws.flatMap env.expand = args

section Expand

variable {w : Word}

theorem HasPattern.cons (c : WordChar) (h : HasPattern w) : HasPattern (c :: w) := by
  obtain ⟨before, after, rfl, hstarts⟩ := h
  exact ⟨c :: before, after, rfl, hstarts⟩

/-- Without a pattern a word finds at most itself. -/
theorem Finds.eq_text {path : Text} (h : Finds w path) (hw : ¬HasPattern w) : path = w.text := by
  induction h with
  | nil => rfl
  | char c _ ih =>
      rw [ih fun hpattern => hw (hpattern.cons c)]
      rfl
  | anyString s hs _ _ => exact absurd ⟨[], _, rfl, .anyString _⟩ hw
  | anyChar c hc _ _ => exact absurd ⟨[], _, rfl, .anyChar _⟩ hw
  | bracket members hmembers hslash c hc _ _ =>
      exact absurd ⟨[], _, rfl, .bracket members _ hmembers hslash⟩ hw

theorem finds_text (w : Word) : Finds w w.text := by
  induction w with
  | nil => exact .nil
  | cons c w ih => exact .char c ih

theorem Finds.append {path : Text} (h : Finds w path) (before : Word) :
    Finds (before ++ w) (before.text ++ path) := by
  induction before with
  | nil => exact h
  | cons c before ih => exact .char c ih

/-- A pattern finds a path other than itself. -/
theorem HasPattern.exists_finds (h : HasPattern w) : ∃ path, Finds w path ∧ path ≠ w.text := by
  obtain ⟨before, after, rfl, hstarts⟩ := h
  have hother : ∃ path, Finds after path ∧ path ≠ after.text := by
    cases hstarts with
    | anyString rest =>
        exact ⟨'x' :: rest.text, .anyString ['x'] (by decide) (finds_text rest),
          by simp [Word.text]⟩
    | anyChar rest =>
        exact ⟨'x' :: rest.text, .anyChar 'x' (by decide) (finds_text rest), by simp [Word.text]⟩
    | bracket members rest hmembers hslash =>
        exact ⟨'x' :: rest.text, .bracket members hmembers hslash 'x' (by decide) (finds_text rest),
          by simp [Word.text]⟩
  obtain ⟨path, hfinds, hne⟩ := hother
  refine ⟨before.text ++ path, hfinds.append before, fun heq => hne ?_⟩
  rw [Word.text, Word.text, List.map_append] at heq
  exact List.append_cancel_left heq

theorem literal_quotedWord (s : Text) : Literal (quotedWord s) := by
  have hquoted : ∀ c ∈ quotedWord s, c.quoting = .quoted := by
    intro c hc
    obtain ⟨a, -, rfl⟩ := List.mem_map.mp hc
    rfl
  refine ⟨?_, ?_, ?_⟩
  · rw [Word.isSubstituted, List.any_eq_false]
    intro c hc
    rw [hquoted c hc]
    decide
  · unfold tildePrefix
    split
    · rename_i heq
      exact absurd (hquoted _ (by rw [heq]; exact List.mem_cons_self)) (by decide)
    · rfl
  · rintro ⟨before, after, heq, hstarts⟩
    rw [heq] at hquoted
    cases hstarts with
    | _ => exact absurd (hquoted _ (List.mem_append_right _ List.mem_cons_self)) (by decide)

theorem isSubstituted_plainWord (s : Text) : (plainWord s).isSubstituted = false := by
  rw [Word.isSubstituted, List.any_eq_false]
  intro c hc
  obtain ⟨a, -, rfl⟩ := List.mem_map.mp hc
  exact Bool.false_ne_true

theorem tildePrefix_plainWord (s : Text) :
    tildePrefix (plainWord s) = none ↔ s.head? ≠ some '~' := by
  cases s with
  | nil => exact ⟨fun _ => by simp, fun _ => rfl⟩
  | cons c s =>
      by_cases hc : c = '~'
      · have hlogin : (((plainWord s).takeWhile fun c => c != ⟨'/', .plain⟩).any
            fun c => c.quoting ≠ .plain) = false := by
          rw [List.any_eq_false]
          intro c hc
          obtain ⟨a, -, rfl⟩ := List.mem_map.mp ((List.takeWhile_prefix _).subset hc)
          exact Bool.false_ne_true
        have hsome : tildePrefix (plainWord ('~' :: s)) ≠ none := by
          have heq : tildePrefix (plainWord ('~' :: s)) =
              if ((plainWord s).takeWhile fun c => c != ⟨'/', .plain⟩).any
                fun c => c.quoting ≠ .plain then none
              else some (Word.text ((plainWord s).takeWhile fun c => c != ⟨'/', .plain⟩),
                (plainWord s).drop
                  ((plainWord s).takeWhile fun c => c != ⟨'/', .plain⟩).length) := rfl
          rw [heq, hlogin]
          exact Option.some_ne_none _
        rw [hc]
        exact ⟨fun h => absurd h hsome, fun h => absurd rfl h⟩
      · have hnone : tildePrefix (plainWord (c :: s)) = none := by
          unfold tildePrefix
          split
          · rename_i heq
            exact absurd (WordChar.mk.inj (List.cons.inj heq).1).1 hc
          · rfl
        exact ⟨fun _ h => hc (Option.some.inj h), fun _ => hnone⟩

/-- The wildcards, and the bracket expressions that a slash does not break off. -/
theorem hasPattern_plainWord (s : Text) :
    HasPattern (plainWord s) ↔ '*' ∈ s ∨ '?' ∈ s ∨ ∃ before members after,
      s = before ++ '[' :: (members ++ ']' :: after) ∧ members ≠ [] ∧ '/' ∉ members := by
  constructor
  · rintro ⟨before, after, heq, hstarts⟩
    obtain ⟨before, after, rfl, rfl, rfl⟩ := List.map_eq_append_iff.mp heq
    generalize hafter : after.map (fun c => (⟨c, .plain⟩ : WordChar)) = w at hstarts
    cases hstarts with
    | anyString w =>
        obtain ⟨c, after, rfl, hc, -⟩ := List.map_eq_cons_iff.mp hafter
        exact Or.inl (by simp [(WordChar.mk.inj hc).1])
    | anyChar w =>
        obtain ⟨c, after, rfl, hc, -⟩ := List.map_eq_cons_iff.mp hafter
        exact Or.inr (Or.inl (by simp [(WordChar.mk.inj hc).1]))
    | bracket members w hmembers hslash =>
        obtain ⟨c, after, rfl, hc, hrest⟩ := List.map_eq_cons_iff.mp hafter
        obtain ⟨members, after, rfl, rfl, hclose⟩ := List.map_eq_append_iff.mp hrest
        obtain ⟨c', after, rfl, hc', -⟩ := List.map_eq_cons_iff.mp hclose
        refine Or.inr (Or.inr ⟨before, members, after, ?_, ?_, ?_⟩)
        · rw [(WordChar.mk.inj hc).1, (WordChar.mk.inj hc').1]
        · exact fun h => hmembers (by rw [h]; rfl)
        · rwa [← plainWord, text_plainWord] at hslash
  · rintro (h | h | ⟨before, members, after, rfl, hmembers, hslash⟩)
    · obtain ⟨before, after, rfl⟩ := List.append_of_mem h
      exact ⟨plainWord before, _, by rw [plainWord, List.map_append]; rfl, .anyString _⟩
    · obtain ⟨before, after, rfl⟩ := List.append_of_mem h
      exact ⟨plainWord before, _, by rw [plainWord, List.map_append]; rfl, .anyChar _⟩
    · refine ⟨plainWord before, _, ?_, .bracket (plainWord members) (plainWord after) ?_ ?_⟩
      · simp [plainWord]
      · exact fun h => hmembers (List.map_eq_nil_iff.mp h)
      · rwa [text_plainWord]

/-- A directory with one file, and no one at home. -/
def Environment.finding (w : Word) (path : Text) (h : Finds w path) : Environment where
  substitution := fun w => [w.text]
  home := fun _ => none
  pathnames := fun w' => if w' = w then [path] else []
  finds := by
    intro w' path' hpath
    split at hpath
    · rename_i heq
      rw [heq, List.mem_singleton.mp hpath]
      exact h
    · cases hpath
  nodup := by
    intro w'
    split
    · simp
    · exact List.nodup_nil

/-- Every login name has the same home, and there are no files. -/
def Environment.homely (home : Option Text) : Environment where
  substitution := fun w => [w.text]
  home := fun _ => home
  pathnames := fun _ => []
  finds := by
    intro _ _ hpath
    cases hpath
  nodup := fun _ => List.nodup_nil

theorem Environment.expandTilde_of_home_none {env : Environment}
    (h : ∀ login, env.home login = none) (w : Word) : env.expandTilde w = w := by
  unfold Environment.expandTilde
  split
  · rfl
  · rw [h]

theorem Literal.expand (h : Literal w) (env : Environment) : env.expand w = [w.text] := by
  have htilde : env.expandTilde w = w := by
    rw [Environment.expandTilde, h.2.1]
  unfold Environment.expand
  rw [h.1, if_neg Bool.false_ne_true, htilde]
  split
  · rfl
  · have hall : ∀ path ∈ env.pathnames w, path = w.text := fun path hpath =>
      (env.finds w path hpath).eq_text h.2.2
    have hnodup := env.nodup w
    cases hpaths : env.pathnames w with
    | nil => contradiction
    | cons path paths =>
        rw [hpaths] at hall hnodup
        cases paths with
        | nil => rw [hall path List.mem_cons_self]
        | cons path' paths =>
            exact absurd ((hall path (by simp)).trans (hall path' (by simp)).symm)
              (by simp at hnodup; tauto)

/-- No substitution gives anything but its text, no one is at home and there are no files. -/
theorem Environment.expand_homely_none (w : Word) :
    (Environment.homely none).expand w = [w.text] := by
  unfold Environment.expand
  split
  · rfl
  · rw [Environment.expandTilde_of_home_none fun _ => rfl]
    rfl

/-- Every substitution gives one letter more than its text. -/
def Environment.substituting : Environment :=
  { Environment.homely none with substitution := fun w => ['x' :: w.text] }

/-- A word that is not literal is changed by an environment that gives one text for each
word. -/
theorem exists_expand_ne (h : ¬Literal w) :
    ∃ env : Environment, (∀ w', (env.expand w').length = 1) ∧ env.expand w ≠ [w.text] := by
  by_cases hsubstituted : w.isSubstituted = true
  · refine ⟨.substituting, fun w' => ?_, ?_⟩
    · unfold Environment.expand
      split
      · rfl
      · rfl
    · rw [Environment.expand, if_pos hsubstituted]
      exact fun heq => List.cons_ne_self _ _ (List.singleton_inj.mp heq)
  have hliteral := Bool.eq_false_iff.mpr hsubstituted
  by_cases htilde : tildePrefix w = none
  · have hpattern : HasPattern w := by
      by_contra hpattern
      exact h ⟨hliteral, htilde, hpattern⟩
    obtain ⟨path, hfinds, hne⟩ := hpattern.exists_finds
    have hexpand : ∀ w', (Environment.finding w path hfinds).expand w' =
        if w'.isSubstituted then [w'.text] else if w' = w then [path] else [w'.text] := by
      intro w'
      rw [Environment.expand, Environment.expandTilde_of_home_none fun _ => rfl,
        Environment.finding]
      by_cases hw : w' = w
      · simp [hw]
      · simp [hw]
    refine ⟨.finding w path hfinds, fun w' => ?_, ?_⟩
    · rw [hexpand]
      split_ifs
      · rfl
      · rfl
      · rfl
    · rw [hexpand, if_neg hsubstituted, if_pos rfl]
      exact fun heq => hne (List.singleton_inj.mp heq)
  · refine ⟨.homely (some ['/']), fun w' => ?_, ?_⟩
    · unfold Environment.expand
      split
      · rfl
      · rfl
    obtain ⟨⟨login, rest⟩, hprefix⟩ := Option.ne_none_iff_exists'.mp htilde
    have hexpand : (Environment.homely (some ['/'])).expand w = ['/' :: Word.text rest] := by
      rw [Environment.expand, if_neg hsubstituted, Environment.expandTilde, hprefix]
      rfl
    rw [hexpand]
    intro heq
    have htext : w.text = '/' :: Word.text rest := (List.singleton_inj.mp heq).symm
    unfold tildePrefix at hprefix
    split at hprefix
    · exact absurd (List.cons.inj htext).1 (by decide)
    · cases hprefix

theorem expand_eq_of_flatMap {env : Environment} (henv : ∀ w, (env.expand w).length = 1)
    {ws : List Word} (h : ws.flatMap env.expand = ws.map Word.text) :
    ∀ w ∈ ws, env.expand w = [w.text] := by
  induction ws with
  | nil => exact fun _ hw => absurd hw List.not_mem_nil
  | cons w ws ih =>
      obtain ⟨text, htext⟩ := List.length_eq_one_iff.mp (henv w)
      rw [List.flatMap_cons, htext, List.map_cons, List.singleton_append] at h
      obtain ⟨rfl, hws⟩ := List.cons.inj h
      intro w' hw'
      rcases List.mem_cons.mp hw' with rfl | hw'
      · exact htext
      · exact ih hws w' hw'

/-- Every environment gives the texts for the words exactly when they are the texts of the
words and no word of them has an expansion. -/
theorem expand_eq_iff {ws : List Word} {args : List Text} :
    (∀ env : Environment, ws.flatMap env.expand = args) ↔
      ws.map Word.text = args ∧ ∀ w ∈ ws, Literal w := by
  constructor
  · intro h
    have htexts : ws.map Word.text = args := by
      rw [← h (.homely none), List.map_eq_flatMap]
      exact List.flatMap_congr fun w _ => (Environment.expand_homely_none w).symm
    refine ⟨htexts, fun w hw => ?_⟩
    by_contra hliteral
    obtain ⟨env, henv, hne⟩ := exists_expand_ne hliteral
    exact hne (expand_eq_of_flatMap henv ((h env).trans htexts.symm) w hw)
  · rintro ⟨rfl, hliteral⟩ env
    rw [List.map_eq_flatMap]
    exact List.flatMap_congr fun w hw => (hliteral w hw).expand env

end Expand

end Npnpm.Shell
