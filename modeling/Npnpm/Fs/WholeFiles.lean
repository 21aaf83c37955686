import Npnpm.Fs.EnsureFile
import Mathlib.Tactic.Cases

/-!
# When an ensured file is whole

The calls for one path that carry one content write the same bytes at the same
positions, so the file is at every moment a beginning of the content, as long as
the furthest handle has come. A call that writes leaves the whole content. A call
that finds the file there leaves what the others have written so far.
-/

namespace Npnpm

namespace EnsureFile

/-- The step lets a call for the path return `Ok`. -/
def ReturnsOk (p : Text) (x : State × Event × State) : Prop :=
  ∃ c call, (x.2.1 = .found c ∨ x.2.1 = .finished c) ∧ x.1.calls c = some call ∧
    call.filePath = p

/-- The file has not been opened yet. -/
def Phase.BeforeOpen : Phase → Prop
  | .checking | .creatingDir _ | .opening => True
  | _ => False

/-- The file at the path has the content. -/
def Whole (files : Text → Option FileOnDisk) (p : Text) (w : List UInt8) : Prop :=
  ∃ file, files p = some file ∧ file.bytes = w

/-- The file was there before all calls, or a call has written its content to the end. -/
def WrittenOut (start s : State) (p : Text) : Prop :=
  start.files p ≠ none ∨
    ∃ c call, s.calls c = some call ∧ call.filePath = p ∧
      call.written = some call.content.length

/-- No call for the path takes a file for complete that nobody has written to its end. -/
def FoundWritten (start : State) (p : Text) (x : State × Event × State) : Prop :=
  ∀ c call, x.2.1 = .found c → x.1.calls c = some call → call.filePath = p →
    WrittenOut start x.1 p

theorem writeAt_chunk {bytes w : List UInt8} {k n : Nat} (h : bytes <+: w)
    (hk : k ≤ bytes.length) (hn : k + n ≤ w.length) :
    writeAt bytes k ((w.drop k).take n) = w.take (max bytes.length (k + n)) := by
  have hbytes := List.prefix_iff_eq_take.mp h
  have hlen := h.length_le
  have hchunk : ((w.drop k).take n).length = n := by simp; omega
  have htake : bytes.take k = w.take k := by
    rw [hbytes, List.take_take, Nat.min_eq_left hk]
  have hdrop : bytes.drop (k + n) = (w.drop (k + n)).take (bytes.length - (k + n)) := by
    rw [← List.drop_take, ← hbytes]
  calc writeAt bytes k ((w.drop k).take n)
      = w.take k ++ (w.drop k).take n ++ (w.drop (k + n)).take (bytes.length - (k + n)) := by
        simp only [writeAt, hchunk, htake, hdrop, Nat.sub_eq_zero_of_le hk, List.replicate_zero,
          List.append_nil]
    _ = w.take (k + n) ++ (w.drop (k + n)).take (bytes.length - (k + n)) := by
        rw [List.take_add]
    _ = w.take (k + n + (bytes.length - (k + n))) := by
        rw [List.take_add (i := k + n)]
    _ = w.take (max bytes.length (k + n)) := by
        congr 1
        omega

section Invariant

variable {start s s' : State} {p : Text} {w : List UInt8} {c : Nat} {call : Call}

/-- The file is a beginning of the content, as long as the furthest handle has come. -/
structure Inv (start : State) (p : Text) (w : List UInt8) (s : State) : Prop where
  file : ∀ f, s.files p = some f → f.bytes <+: w ∧
    (start.files p ≠ none ∨
      ∃ c call, s.calls c = some call ∧ call.filePath = p ∧ call.written = some f.bytes.length)
  call : ∀ c call, s.calls c = some call → call.filePath = p → call.content = w ∧
    ∀ k, call.written = some k → ∃ f, s.files p = some f ∧ k ≤ f.bytes.length
  started : start.files p ≠ none → Whole s.files p w

theorem Inv.initial (hstart : ∀ f, start.files p = some f → f.bytes = w)
    (hcalls : ∀ c, start.calls c = none) : Inv start p w start where
  file := by
    intro f hf
    exact ⟨by simp [hstart f hf], Or.inl (by simp [hf])⟩
  call := by
    intro c call h
    simp [hcalls] at h
  started := by
    intro h
    obtain ⟨f, hf⟩ := Option.ne_none_iff_exists'.mp h
    exact ⟨f, hf, hstart f hf⟩

/-- A step that leaves the files alone and the handle where it is. -/
theorem Inv.setCall (hinv : Inv start p w s) (h : s.calls c = some call) {next : Call}
    (hpath : next.filePath = call.filePath) (hcontent : next.content = call.content)
    (hwritten : next.written = call.written) : Inv start p w (s.setCall c next) where
  file := by
    intro f hf
    obtain ⟨hpre, hsrc⟩ := hinv.file f hf
    refine ⟨hpre, hsrc.imp_right ?_⟩
    rintro ⟨d, other, hd, hp, hw⟩
    by_cases hdc : d = c
    · subst hdc
      obtain rfl : call = other := by simpa [h] using hd
      exact ⟨d, next, by simp [State.setCall], hpath.trans hp, hwritten.trans hw⟩
    · exact ⟨d, other, by simp [State.setCall, hdc, hd], hp, hw⟩
  call := by
    intro d other hd hp
    by_cases hdc : d = c
    · obtain rfl : next = other := by simpa [State.setCall, hdc] using hd
      rw [hcontent, hwritten]
      exact hinv.call c call h (hpath.symm.trans hp)
    · exact hinv.call d other (by simpa [State.setCall, hdc] using hd) hp
  started := hinv.started

theorem Inv.setPhase (hinv : Inv start p w s) (h : s.calls c = some call) (phase : Phase) :
    Inv start p w (s.setCall c (call.setPhase phase)) :=
  hinv.setCall h rfl rfl rfl

/-- A step that puts a longer beginning of the content at the path. -/
theorem Inv.setFile (hinv : Inv start p w s) (h : s.calls c = some call)
    (hp : call.filePath = p) {file : FileOnDisk} {phase : Phase} {k : Nat}
    (hpre : file.bytes <+: w) (hk : k ≤ file.bytes.length)
    (hlen : k = file.bytes.length ∨ ∃ f, s.files p = some f ∧ f.bytes = file.bytes)
    (hold : ∀ k', call.written = some k' → k' ≤ k)
    (hgrow : ∀ f, s.files p = some f → f.bytes.length ≤ file.bytes.length) :
    Inv start p w ((s.setFile call.filePath file).setCall c
      { call with phase := phase, written := some k }) where
  file := by
    intro f hf
    obtain rfl : file = f := by simpa [State.setCall, State.setFile, hp] using hf
    refine ⟨hpre, ?_⟩
    obtain rfl | ⟨f, hf, heq⟩ := hlen
    · exact Or.inr ⟨c, { call with phase := phase, written := some file.bytes.length },
        by simp [State.setCall], hp, rfl⟩
    · obtain ⟨-, hsrc⟩ := hinv.file f hf
      apply hsrc.imp_right
      rintro ⟨d, other, hd, hop, hw⟩
      by_cases hdc : d = c
      · subst hdc
        obtain rfl : call = other := by simpa [h] using hd
        have hle := hold _ hw
        rw [heq] at hle
        exact ⟨d, { call with phase := phase, written := some k }, by simp [State.setCall], hp,
          congrArg some (Nat.le_antisymm hk hle)⟩
      · exact ⟨d, other, by simp [State.setCall, State.setFile, hdc, hd], hop, heq ▸ hw⟩
  call := by
    intro d other hd hop
    have hfile : ((s.setFile call.filePath file).setCall c
        { call with phase := phase, written := some k }).files p = some file := by
      simp [State.setCall, State.setFile, hp]
    by_cases hdc : d = c
    · obtain rfl : { call with phase := phase, written := some k } = other := by
        simpa [State.setCall, State.setFile, hdc] using hd
      refine ⟨(hinv.call c call h hp).1, ?_⟩
      intro k' hk'
      obtain rfl : k = k' := by simpa using hk'
      exact ⟨file, hfile, hk⟩
    · obtain ⟨hcontent, hw⟩ := hinv.call d other
        (by simpa [State.setCall, State.setFile, hdc] using hd) hop
      refine ⟨hcontent, ?_⟩
      intro k' hk'
      obtain ⟨f, hf, hle⟩ := hw k' hk'
      exact ⟨file, hfile, Nat.le_trans hle (hgrow f hf)⟩
  started := by
    intro hstarted
    obtain ⟨f, hf, hbytes⟩ := hinv.started hstarted
    refine ⟨file, by simp [State.setCall, State.setFile, hp], ?_⟩
    have hle := hgrow f hf
    rw [hbytes] at hle
    exact hpre.eq_of_length_le hle

/-- Steps on the files of other paths. -/
theorem Inv.other (hinv : Inv start p w s) (h : s.calls c = some call)
    (hp : call.filePath ≠ p) (file : FileOnDisk) {next : Call}
    (hnext : next.filePath = call.filePath) :
    Inv start p w ((s.setFile call.filePath file).setCall c next) where
  file := by
    intro f hf
    have hf : s.files p = some f := by
      simpa [State.setCall, State.setFile, Ne.symm hp] using hf
    obtain ⟨hpre, hsrc⟩ := hinv.file f hf
    refine ⟨hpre, hsrc.imp_right ?_⟩
    rintro ⟨d, other, hd, hop, hw⟩
    have hdc : d ≠ c := by
      rintro rfl
      obtain rfl : call = other := by simpa [h] using hd
      exact hp hop
    exact ⟨d, other, by simp [State.setCall, State.setFile, hdc, hd], hop, hw⟩
  call := by
    intro d other hd hop
    have hdc : d ≠ c := by
      rintro rfl
      obtain rfl : next = other := by simpa [State.setCall] using hd
      exact hp (hnext.symm.trans hop)
    obtain ⟨hcontent, hw⟩ := hinv.call d other
      (by simpa [State.setCall, State.setFile, hdc] using hd) hop
    refine ⟨hcontent, ?_⟩
    intro k hk
    obtain ⟨f, hf, hle⟩ := hw k hk
    exact ⟨f, by simpa [State.setCall, State.setFile, Ne.symm hp] using hf, hle⟩
  started := by
    intro hstarted
    obtain ⟨f, hf, hbytes⟩ := hinv.started hstarted
    exact ⟨f, by simpa [State.setCall, State.setFile, Ne.symm hp] using hf, hbytes⟩

/-- A new call has no handle yet. -/
theorem Inv.newCall (hinv : Inv start p w s) {content : List UInt8} {mode : Option Nat}
    {filePath : Text} (hnew : s.calls c = none) (hsame : filePath = p → content = w) :
    Inv start p w (s.setCall c ⟨filePath, content, mode, .checking, none⟩) where
  file := by
    intro f hf
    obtain ⟨hpre, hsrc⟩ := hinv.file f hf
    refine ⟨hpre, hsrc.imp_right ?_⟩
    rintro ⟨d, other, hd, hrest⟩
    have hdc : d ≠ c := by
      rintro rfl
      simp [hnew] at hd
    exact ⟨d, other, by simp [State.setCall, hdc, hd], hrest⟩
  call := by
    intro d other hd hp
    by_cases hdc : d = c
    · obtain rfl : (⟨filePath, content, mode, .checking, none⟩ : Call) = other := by
        simpa [State.setCall, hdc] using hd
      exact ⟨hsame hp, by simp⟩
    · exact hinv.call d other (by simpa [State.setCall, hdc] using hd) hp
  started := hinv.started

/-- Opening the file keeps what is in it. -/
theorem Inv.open (hinv : Inv start p w s) (h : s.calls c = some call)
    (hnone : call.written = none) :
    Inv start p w ((s.setFile call.filePath (openFile s.files call)).setCall c
      { call with phase := .writing, written := some 0 }) := by
  by_cases hp : call.filePath = p
  · apply hinv.setFile h hp
    · unfold openFile
      rw [hp]
      cases hf : s.files p with
      | none => simp
      | some f => exact (hinv.file f hf).1
    · simp
    · unfold openFile
      rw [hp]
      cases hf : s.files p with
      | none => exact Or.inl rfl
      | some f => exact Or.inr ⟨f, rfl, rfl⟩
    · simp [hnone]
    · intro f hf
      simp [openFile, hp, hf]
  · exact hinv.other h hp _ rfl

/-- Writing at the handle's position rewrites what is there and appends the rest. -/
theorem Inv.write (hinv : Inv start p w s) (h : s.calls c = some call) {file : FileOnDisk}
    {k n : Nat} (hwritten : call.written = some k) (hfile : s.files call.filePath = some file)
    (hn : k + n ≤ call.content.length) :
    Inv start p w ((s.setFile call.filePath
      { file with bytes := writeAt file.bytes k (call.chunk k n) }).setCall c
        { call with written := some (k + n) }) := by
  by_cases hp : call.filePath = p
  · obtain ⟨rfl, hw⟩ := hinv.call c call h hp
    rw [hp] at hfile
    obtain ⟨f, hf, hk⟩ := hw k hwritten
    obtain rfl : file = f := by simpa [hfile] using hf
    have hpre := (hinv.file file hfile).1
    have hlen := hpre.length_le
    have hbytes := writeAt_chunk hpre hk hn
    have hlength : (writeAt file.bytes k (call.chunk k n)).length =
        max file.bytes.length (k + n) := by
      rw [Call.chunk, hbytes, List.length_take]
      omega
    apply hinv.setFile h hp
    · rw [Call.chunk, hbytes]
      exact List.take_prefix _ _
    · rw [hlength]
      omega
    · rcases Nat.le_total file.bytes.length (k + n) with hle | hle
      · left
        rw [hlength]
        omega
      · right
        refine ⟨file, hfile, ?_⟩
        rw [Call.chunk, hbytes, Nat.max_eq_left hle]
        exact List.prefix_iff_eq_take.mp hpre
    · intro k' hk'
      obtain rfl : k = k' := by simpa [hwritten] using hk'
      omega
    · intro f hf
      obtain rfl : file = f := by simpa [hfile] using hf
      rw [hlength]
      omega
  · exact hinv.other h hp _ rfl

/-- A call that has not opened the file has no handle. -/
def Fresh (s : State) : Prop :=
  ∀ c call, s.calls c = some call → call.phase.BeforeOpen → call.written = none

theorem Fresh.setCall (hfresh : Fresh s) {next : Call}
    (hnext : next.phase.BeforeOpen → next.written = none) {files : Text → Option FileOnDisk} :
    Fresh (({ s with files := files } : State).setCall c next) := by
  intro d other hd hphase
  by_cases hdc : d = c
  · obtain rfl : next = other := by simpa [State.setCall, hdc] using hd
    exact hnext hphase
  · exact hfresh d other (by simpa [State.setCall, hdc] using hd) hphase

theorem Fresh.step {e : Event} (hfresh : Fresh s) (h : Step s e s') : Fresh s' := by
  cases h with
  | call => exact hfresh.setCall fun _ => rfl
  | @notFound _ call h hphase =>
      have hnone := hfresh _ _ h (by simp [hphase, Phase.BeforeOpen])
      apply hfresh.setCall
      exact fun _ => hnone
  | @dirCreated _ call _ h hphase =>
      have hnone := hfresh _ _ h (by simp [hphase, Phase.BeforeOpen])
      apply hfresh.setCall
      exact fun _ => hnone
  | found | dirFailed | openFailed | writeFailed | finished | killed =>
      exact hfresh.setCall fun hb => by simp [Call.setPhase, Phase.BeforeOpen] at hb
  | opened => exact hfresh.setCall fun hb => by simp [Phase.BeforeOpen] at hb
  | wrote h hphase => exact hfresh.setCall fun hb => by simp [hphase, Phase.BeforeOpen] at hb

/-- The event is no call for the path with another content. -/
def SameContent (p : Text) (w : List UInt8) (e : Event) : Prop :=
  ∀ c content mode, e = .call c p content mode → content = w

theorem Inv.step {e : Event} (hinv : Inv start p w s) (hfresh : Fresh s)
    (hsame : SameContent p w e) (h : Step s e s') : Inv start p w s' := by
  cases h with
  | call c filePath content mode h =>
      apply hinv.newCall h
      rintro rfl
      exact hsame c content mode rfl
  | opened h hphase =>
      exact hinv.open h (hfresh _ _ h (by simp [hphase, Phase.BeforeOpen]))
  | wrote h _ hwritten hfile _ hn => exact hinv.write h hwritten hfile hn
  | found h | notFound h | dirCreated h | dirFailed _ h | openFailed _ h | writeFailed _ h
  | finished h | killed h => exact hinv.setPhase h _

theorem Inv.run {trace : List (State × Event × State)}
    (hstart : ∀ f, start.files p = some f → f.bytes = w) (hcalls : ∀ c, start.calls c = none)
    (run : Run (Traced Step) start trace s) (hsame : ∀ x ∈ trace, SameContent p w x.2.1) :
    Inv start p w s := by
  have hboth : Inv start p w s ∧ Fresh s := by
    apply run.invariant_of_forall (fun s => Inv start p w s ∧ Fresh s) hsame
    · exact ⟨Inv.initial hstart hcalls, fun c call h => by simp [hcalls] at h⟩
    · rintro t x t' ⟨hinv, hfresh⟩ hok ⟨rfl, rfl, hstep⟩
      exact ⟨hinv.step hfresh hok hstep, hfresh.step hstep⟩
  exact hboth.1

/-- A handle at the end of the content stands in a whole file. -/
theorem Inv.whole_of_written (hinv : Inv start p w s) (h : s.calls c = some call)
    (hp : call.filePath = p) (hwritten : call.written = some call.content.length) :
    Whole s.files p w := by
  obtain ⟨rfl, hw⟩ := hinv.call c call h hp
  obtain ⟨f, hf, hle⟩ := hw _ hwritten
  exact ⟨f, hf, (hinv.file f hf).1.eq_of_length_le hle⟩

/-- The file is there and whole if and only if somebody has written it to its end. -/
theorem Inv.whole_iff (hinv : Inv start p w s) :
    Whole s.files p w ↔ WrittenOut start s p := by
  constructor
  · rintro ⟨f, hf, rfl⟩
    apply (hinv.file f hf).2.imp_right
    rintro ⟨c, call, h, hp, hw⟩
    exact ⟨c, call, h, hp, by rw [hw, (hinv.call c call h hp).1]⟩
  · rintro (hstarted | ⟨c, call, h, hp, hw⟩)
    · exact hinv.started hstarted
    · exact hinv.whole_of_written h hp hw

end Invariant

section Runs

variable {start s : State} {p : Text} {w : List UInt8} {trace : List (State × Event × State)}

theorem Step.found_inv {c : Nat} {s' : State} (h : Step s (.found c) s') :
    s'.files = s.files := by
  cases h
  rfl

theorem Step.finished_inv {c : Nat} {s' : State} (h : Step s (.finished c) s') :
    s'.files = s.files ∧
      ∃ call, s.calls c = some call ∧ call.written = some call.content.length := by
  cases h with
  | finished h _ hwritten => exact ⟨rfl, _, h, hwritten⟩

/-- A step that returns leaves the files as they are. -/
theorem ReturnsOk.files_eq {x : State × Event × State} (h : ReturnsOk p x)
    (hstep : Step x.1 x.2.1 x.2.2) : x.2.2.files = x.1.files := by
  obtain ⟨c, call, he | he, -, -⟩ := h
  · rw [he] at hstep
    exact hstep.found_inv
  · rw [he] at hstep
    exact hstep.finished_inv.1

/-- Every call for a path that returns `Ok` leaves the whole content at the path,
in runs in which all calls for the path carry that content, if and only if no
call finds a file there that nobody has written to its end. -/
theorem returned_whole_iff (hstart : ∀ f, start.files p = some f → f.bytes = w)
    (hcalls : ∀ c, start.calls c = none) (run : Run (Traced Step) start trace s)
    (hsame : ∀ x ∈ trace, SameContent p w x.2.1) :
    (∀ x ∈ trace, ReturnsOk p x → Whole x.2.2.files p w) ↔
      ∀ x ∈ trace, FoundWritten start p x := by
  have hinv : ∀ x ∈ trace, Inv start p w x.1 ∧ Step x.1 x.2.1 x.2.2 := by
    intro x hx
    obtain ⟨before, hbefore, hpre, hstep⟩ := run.exists_of_mem_trace hx
    exact ⟨Inv.run hstart hcalls hbefore fun y hy => hsame y (hpre.subset hy), hstep⟩
  constructor
  · intro hwhole x hx c call he h hp
    obtain ⟨hinv, hstep⟩ := hinv x hx
    have hreturns : ReturnsOk p x := ⟨c, call, Or.inl he, h, hp⟩
    have hfile := hwhole x hx hreturns
    rw [hreturns.files_eq hstep] at hfile
    exact hinv.whole_iff.mp hfile
  · intro hfound x hx hreturns
    obtain ⟨hinv, hstep⟩ := hinv x hx
    rw [hreturns.files_eq hstep]
    obtain ⟨c, call, he | he, h, hp⟩ := hreturns
    · exact hinv.whole_iff.mpr (hfound x hx c call he h hp)
    · rw [he] at hstep
      obtain ⟨-, other, hother, hwritten⟩ := hstep.finished_inv
      obtain rfl : call = other := by simpa [h] using hother
      exact hinv.whole_of_written h hp hwritten

/-- No files and no calls. -/
def nothing : State := ⟨fun _ => none, fun _ => none⟩

theorem sameContent_of_map {events : List Event} (hmap : trace.map (·.2.1) = events)
    (h : ∀ e ∈ events, SameContent p w e) : ∀ x ∈ trace, SameContent p w x.2.1 := by
  intro x hx
  apply h
  rw [← hmap]
  exact List.mem_map_of_mem hx

/-- One call writes the file and a second one finds it. -/
def writeThenFind : List Event :=
  [.call 0 ['f'] [7, 7] none, .notFound 0, .dirCreated 0, .opened 0, .wrote 0 2,
    .finished 0, .call 1 ['f'] [7, 7] none, .found 1]

theorem returned_whole_writeThenFind :
    ∃ trace s, Run (Traced Step) nothing trace s ∧ trace.map (·.2.1) = writeThenFind ∧
      ((∀ x ∈ trace, ReturnsOk ['f'] x →
          Whole x.2.2.files ['f'] [7, 7]) ↔
        ∀ x ∈ trace, FoundWritten nothing ['f'] x) := by
  have run : Run Step nothing [] nothing := .nil
  have run := run.snoc (Step.call 0 ['f'] [7, 7] none rfl)
  have run := run.snoc (Step.notFound (c := 0) rfl rfl)
  have run := run.snoc (Step.dirCreated (c := 0) rfl rfl)
  have run := run.snoc (Step.opened (c := 0) rfl rfl)
  have run := run.snoc (Step.wrote (c := 0) rfl rfl rfl rfl (by decide : 0 < 2) (by decide : 2 ≤ 2))
  have run := run.snoc (Step.finished (c := 0) rfl rfl rfl)
  have run := run.snoc (Step.call 1 ['f'] [7, 7] none rfl)
  have run := run.snoc (Step.found (c := 1) rfl rfl (Option.some_ne_none _))
  obtain ⟨trace, hrun, hmap⟩ := run.exists_trace
  refine ⟨trace, _, hrun, hmap, ?_⟩
  apply returned_whole_iff (by simp [nothing]) (by simp [nothing]) hrun
  apply sameContent_of_map hmap
  simp [SameContent]

/-- A call that is killed between opening and writing the file leaves it empty, and
the next call takes it for complete. -/
theorem found_unfinished :
    ¬ ∀ (p : Text) (w : List UInt8) (s : State) (trace : List (State × Event × State)),
      Run (Traced Step) nothing trace s → (∀ x ∈ trace, SameContent p w x.2.1) →
        ∀ x ∈ trace, ReturnsOk p x → Whole x.2.2.files p w := by
  intro hall
  have run : Run Step nothing [] nothing := .nil
  have run := run.snoc (Step.call 0 ['f'] [7, 7] none rfl)
  have run := run.snoc (Step.notFound (c := 0) rfl rfl)
  have run := run.snoc (Step.dirCreated (c := 0) rfl rfl)
  have run := run.snoc (Step.opened (c := 0) rfl rfl)
  have run := run.snoc (Step.killed (c := 0) rfl (by exact trivial))
  have run := run.snoc (Step.call 1 ['f'] [7, 7] none rfl)
  obtain ⟨trace, hrun, hmap, hlast⟩ := run.exists_trace_last
    (.found (c := 1) rfl rfl (Option.some_ne_none _))
  obtain ⟨f, hf, hbytes⟩ := hall ['f'] [7, 7] _ trace hrun
    (sameContent_of_map hmap (by simp [SameContent])) _ hlast
    ⟨1, _, Or.inl rfl, rfl, rfl⟩
  have hempty : f.bytes = [] := by
    have : some (⟨[], none⟩ : FileOnDisk) = some f := hf
    cases this
    rfl
  simp [hempty] at hbytes

end Runs

end EnsureFile

end Npnpm
