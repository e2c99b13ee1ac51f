import LambdaScript.Proofs.Report.Bookkeeping
import LambdaScript.Proofs.Session.Batch
import LambdaScript.Session.Shell

/-!
A conversation with the shell. The lines that it is given are cut into entries: blank lines between entries are
dropped, and an entry ends with the first line with which it needs no more. Every entry is run once, in order, in a
session with nothing else to do, and its value is echoed if it has one. Whether it has or not, the session is idle
afterwards, so what follows does not depend on what went wrong before. The state of the shell between two lines is
that of the lines since the last entry, and one line more takes it to that of these lines and the new one.
-/

namespace LambdaScript

/-! ### Cutting lines into entries -/

/-- The entry that some lines make. -/
def entryOf (lines : List String) : String := "\n".intercalate lines

/-- Lines that an entry may begin with: the first one is not blank, and with every one of them more are needed. -/
structure IsHeld (held : List String) : Prop where
  first : ∀ line ∈ held.head?, Text.trim line ≠ ""
  more : ∀ taken, taken ≠ [] → taken <+: held → needsMore (entryOf taken) = true

/-- Lines cut into the blocks of entries and the lines of one that is not complete. Blank lines before a block are
dropped, and a block is no longer than it has to be. -/
inductive Cut : List String → List (List String) → List String → Prop where
  | rest {held : List String} (hheld : IsHeld held) : Cut held [] held
  | blank {line : String} {lines rest : List String} {blocks : List (List String)} (hblank : Text.trim line = "")
      (hrest : Cut lines blocks rest) : Cut (line :: lines) blocks rest
  | entry {held lines rest : List String} {line : String} {blocks : List (List String)} (hheld : IsHeld held)
      (hfirst : held = [] → Text.trim line ≠ "") (hcomplete : needsMore (entryOf (held ++ [line])) = false)
      (hrest : Cut lines blocks rest) : Cut (held ++ line :: lines) ((held ++ [line]) :: blocks) rest

variable {held lines rest rest' : List String} {line : String} {blocks blocks' : List (List String)}

theorem isHeld_nil : IsHeld [] := by
  refine ⟨fun line hline => ?_, fun taken hne htaken => ?_⟩
  · cases hline
  · exact absurd (List.prefix_nil.mp htaken) hne

theorem IsHeld.concat (h : IsHeld held) (hfirst : held = [] → Text.trim line ≠ "")
    (hmore : needsMore (entryOf (held ++ [line])) = true) : IsHeld (held ++ [line]) := by
  constructor
  · intro first hmem
    cases held with
    | nil =>
        cases hmem
        exact hfirst rfl
    | cons other held => exact h.first first hmem
  · intro taken hne htaken
    rcases List.prefix_concat_iff.mp htaken with rfl | hshort
    · exact hmore
    · exact h.more taken hne hshort

theorem IsHeld.not_blank (h : IsHeld (line :: lines)) : Text.trim line ≠ "" := h.first line rfl

/-- No complete block stands at the start of lines that are held. -/
theorem IsHeld.needsMore_concat (h : IsHeld (held ++ line :: lines)) :
    needsMore (entryOf (held ++ [line])) = true := by
  apply h.more
  · simp
  · exact ⟨lines, by simp⟩

/-- The line that completes a block is not blank if it stands alone, and neither is the first of the block. -/
theorem not_blank_of_block (hheld : IsHeld held) (hfirst : held = [] → Text.trim line ≠ "") {first : String}
    {others : List String} (h : first :: others = held ++ line :: lines) : Text.trim first ≠ "" := by
  cases held with
  | nil =>
      obtain ⟨rfl, -⟩ := List.cons.inj h
      exact hfirst rfl
  | cons other held =>
      obtain ⟨rfl, -⟩ := List.cons.inj h
      exact hheld.not_blank

/-- Two blocks at the start of the same lines are the same block: neither stands in what is held of the other. -/
theorem block_unique {held' lines' : List String} {line' : String} (hheld : IsHeld held) (hheld' : IsHeld held')
    (hcomplete : needsMore (entryOf (held ++ [line])) = false)
    (hcomplete' : needsMore (entryOf (held' ++ [line'])) = false)
    (h : held ++ line :: lines = held' ++ line' :: lines') : held = held' := by
  rcases List.append_eq_append_iff.mp h with ⟨more, hmore, hlines⟩ | ⟨more, hmore, hlines⟩
  · cases more with
    | nil => exact (hmore.trans (List.append_nil held)).symm
    | cons first more =>
        obtain ⟨rfl, -⟩ := List.cons.inj hlines
        subst hmore
        rw [hheld'.needsMore_concat] at hcomplete
        cases hcomplete
  · cases more with
    | nil => exact hmore.trans (List.append_nil held')
    | cons first more =>
        obtain ⟨rfl, -⟩ := List.cons.inj hlines
        subst hmore
        rw [hheld.needsMore_concat] at hcomplete'
        cases hcomplete'

/-- **There is one way to cut lines.** -/
theorem Cut.unique (h : Cut lines blocks rest) (h' : Cut lines blocks' rest') : blocks' = blocks ∧ rest' = rest := by
  induction h generalizing blocks' rest' with
  | @rest held hheld =>
      cases h' with
      | rest => exact ⟨rfl, rfl⟩
      | blank hblank => exact absurd hblank hheld.not_blank
      | entry _ _ hcomplete =>
          rw [hheld.needsMore_concat] at hcomplete
          cases hcomplete
  | @blank line lines rest blocks hblank _ ih =>
      generalize hlines : line :: lines = all at h'
      cases h' with
      | rest hheld =>
          subst hlines
          exact absurd hblank hheld.not_blank
      | blank _ hrest =>
          obtain ⟨-, rfl⟩ := List.cons.inj hlines
          exact ih hrest
      | entry hheld hfirst => exact absurd hblank (not_blank_of_block hheld hfirst hlines)
  | @entry held lines rest line blocks hheld hfirst hcomplete _ ih =>
      generalize hlines : held ++ line :: lines = all at h'
      cases h' with
      | rest hall =>
          subst hlines
          rw [hall.needsMore_concat] at hcomplete
          cases hcomplete
      | blank hblank => exact absurd hblank (not_blank_of_block hheld hfirst hlines.symm)
      | entry hheld' _ hcomplete' hrest =>
          obtain rfl := block_unique hheld hheld' hcomplete hcomplete' hlines
          obtain ⟨rfl, rfl⟩ := List.cons.inj (List.append_cancel_left hlines)
          obtain ⟨rfl, rfl⟩ := ih hrest
          exact ⟨rfl, rfl⟩

/-- Cutting keeps the lines as they come. -/
theorem Cut.sublist (h : Cut lines blocks rest) : (blocks.flatten ++ rest).Sublist lines := by
  induction h with
  | rest => exact List.Sublist.refl _
  | blank _ _ ih => exact ih.cons _
  | @entry held lines rest line blocks _ _ _ _ ih =>
      have hblock := (List.Sublist.refl (held ++ [line])).append ih
      simpa using hblock

/-- Cutting drops none but blank lines. -/
theorem Cut.filter_eq (h : Cut lines blocks rest) :
    (blocks.flatten ++ rest).filter (Text.trim · ≠ "") = lines.filter (Text.trim · ≠ "") := by
  induction h with
  | rest => rfl
  | blank hblank _ ih => rw [ih, List.filter_cons_of_neg (by simpa using hblank)]
  | @entry held lines rest line blocks _ _ _ _ ih =>
      calc
        _ = (held ++ [line]).filter (Text.trim · ≠ "") ++ (blocks.flatten ++ rest).filter (Text.trim · ≠ "") := by
          rw [← List.filter_append, List.flatten_cons, List.append_assoc]
        _ = (held ++ line :: lines).filter (Text.trim · ≠ "") := by
          rw [ih, ← List.filter_append, List.append_assoc, List.singleton_append]

theorem entryOf_concat (hne : held ≠ []) : entryOf (held ++ [line]) = entryOf held ++ "\n" ++ line := by
  unfold entryOf
  rw [String.intercalate_append_of_ne_nil hne (List.cons_ne_nil line []), String.intercalate_singleton]

/-- An entry that is held is not empty, since an empty one is complete. -/
theorem IsHeld.entryOf_eq_empty_iff (h : IsHeld held) : entryOf held = "" ↔ held = [] := by
  refine ⟨fun hempty => ?_, fun hnil => hnil ▸ rfl⟩
  by_contra hne
  have hmore := h.more held hne List.prefix_rfl
  rw [hempty] at hmore
  exact absurd hmore (by decide)

theorem IsHeld.joinEntry_eq (h : IsHeld held) (line : String) :
    joinEntry (entryOf held) line = entryOf (held ++ [line]) := by
  unfold joinEntry
  by_cases hnil : held = []
  · subst hnil
    rfl
  · have hne : (entryOf held).isEmpty = false := by
      simpa using fun hempty => hnil (h.entryOf_eq_empty_iff.mp hempty)
    rw [hne, if_neg Bool.false_ne_true, entryOf_concat hnil]

/-! ### Idle sessions -/

namespace Handler

theorem active_eq_nil_iff {handler : Handler} : handler.active = [] ↔ ∀ file ∈ handler.files, file.2 = none := by
  simp [active]

theorem setEntry_setEntry {α : Type} (entries : List (String × α)) (path : String) (value other : α) :
    setEntry (setEntry entries path value) path other = setEntry entries path other := by
  induction entries with
  | nil => simp [setEntry]
  | cons first entries ih =>
      by_cases hpath : first.1 = path
      · simp [setEntry, hpath]
      · simp [setEntry, hpath, ih]

/-- Where no source is active, none is after a file was registered. -/
theorem active_register {handler : Handler} (h : handler.active = []) (path : String) :
    (handler.register path).active = [] := by
  rw [active_eq_nil_iff] at h ⊢
  intro file hfile
  rcases mem_setEntry hfile with rfl | hmem
  · rfl
  · exact h file hmem

/-- Where no source is active, none is after one was and has been run. -/
theorem active_deactivate_activate {handler : Handler} (h : handler.active = []) (path source : String) :
    ((handler.activate path source).deactivate path).active = [] := by
  have hfiles : ((handler.activate path source).deactivate path).files = (handler.register path).files :=
    setEntry_setEntry handler.files path (some source) none
  rw [active_eq_nil_iff, hfiles, ← active_eq_nil_iff]
  exact active_register h path

theorem active_deactivateAll (handler : Handler) : handler.deactivateAll.active = [] := by
  simp [active, deactivateAll]

/-- A handler that is not fatal reports why a computation stopped, and then no source is active. -/
theorem leave_stop {handler : Handler} (h : handler.fatal = false) (stop : Stop) :
    ∃ text, handler.leave stop.departure = (text, .suppressed, handler.deactivateAll) := by
  cases stop with
  | fault fault => exact ⟨handler.report fault, by simp [leave, Stop.departure, throw, h]⟩
  | tooDeep => exact ⟨handler.report ⟨.nestedTooDeeply, none⟩, by simp [leave, Stop.departure, throw, h]⟩

end Handler

namespace Session

/-- A session with nothing to do: no source waits or is active, and all values have been taken back. Faults do not
end it. -/
structure IsIdle (session : Session) : Prop where
  queue_eq : session.queue = []
  results_eq : session.results = []
  active_eq : session.handler.active = []
  fatal_eq : session.handler.fatal = false

/-- The value of an entry: that of its program, if it is one and can be written out. -/
def entryValue (depth : Nat) (entry : String) : Eval Value :=
  match parse depth entry with
  | .ok program => runProgram depth program
  | .error stop => throw stop

/-- The line that echoes the value of an entry, if it has one. -/
def valueLine? : EStateM.Result Stop World Value → Option String
  | .ok value _ => some (value.text ++ "\n")
  | .error _ _ => none

/-- What comes of an entry in a session: the line that is echoed and the session afterwards. -/
structure Answers (session : Session) (entry echo : String) (after : Session) : Prop where
  idle : after.IsIdle
  depth_eq : after.depth = session.depth
  echo_eq : echo = (valueLine? (entryValue session.depth entry session.world)).getD ""
  world_eq : after.world = leftBy (entryValue session.depth entry session.world)

variable {session : Session}

/-- Where nothing waits, running the queue with an entry in it is running the entry. -/
theorem run_add (h : session.queue = []) (entry : String) : run (session.add entry) = runSource entry session := by
  obtain ⟨handler, path, depth, world, queue, results, log⟩ := session
  subst h
  have hrun : run (add ⟨handler, path, depth, world, [], results, log⟩ entry) =
      (runSource entry >>= fun _ => pure ()) ⟨handler, path, depth, world, [], results, log⟩ := rfl
  rw [hrun, bind_pure_unit]

/-- Running a source succeeds as the value of the entry does; if it does, its value is the only result. -/
theorem runSource_of_idle (h : session.IsIdle) (entry : String) :
    match entryValue session.depth entry session.world with
    | .ok value world => ∃ after, runSource entry session = .ok () after ∧ after.world = world ∧
        after.depth = session.depth ∧ after.results = [value] ∧ { after with results := [] }.IsIdle
    | .error stop world => ∃ after, runSource entry session = .error stop after ∧ after.world = world ∧
        after.depth = session.depth ∧ after.queue = [] ∧ after.results = [] ∧ after.handler.fatal = false := by
  unfold entryValue runSource
  dsimp only
  cases parse session.depth entry with
  | error stop => exact ⟨_, rfl, rfl, rfl, h.queue_eq, h.results_eq, h.fatal_eq⟩
  | ok program =>
      unfold runProgram Expr.source?
      by_cases hfits : program.height ≤ session.depth
      · simp only [if_pos hfits, write]
        cases evaluate session.depth program Store.root session.world with
        | error stop world => exact ⟨_, rfl, rfl, rfl, h.queue_eq, h.results_eq, h.fatal_eq⟩
        | ok value world =>
            refine ⟨_, rfl, rfl, rfl, ?_, h.queue_eq, rfl, ?_, h.fatal_eq⟩
            · rw [h.results_eq]
              rfl
            · exact Handler.active_deactivate_activate h.active_eq session.path entry
      · simp only [if_neg hfits]
        exact ⟨_, rfl, rfl, rfl, h.queue_eq, h.results_eq, h.fatal_eq⟩

end Session

/-- **An idle session is idle after every entry**, and it echoes the value of the entry if it has one. -/
theorem Shell.runEntry_answers {session : Session} (h : session.IsIdle) (entry : String) :
    session.Answers entry (runEntry session entry).1 (runEntry session entry).2 := by
  have hsource := Session.runSource_of_idle h entry
  unfold runEntry Session.guarded
  rw [Session.run_add h.queue_eq]
  cases hvalue : Session.entryValue session.depth entry session.world with
  | ok value world =>
      rw [hvalue] at hsource
      obtain ⟨after, hrun, hworld, hdepth, hresults, hidle⟩ := hsource
      have hpop : ({ after with log := after.log ++ "" } : Session).pop? =
          some (value.text, { after with results := [], log := after.log ++ "" }) := by
        simp [Session.pop?, hresults]
      simp only [hrun, Handler.leave, hpop]
      refine ⟨⟨hidle.queue_eq, rfl, hidle.active_eq, hidle.fatal_eq⟩, hdepth, ?_, ?_⟩
      · rw [hvalue]
        rfl
      · rw [hvalue]
        exact hworld
  | error stop world =>
      rw [hvalue] at hsource
      obtain ⟨after, hrun, hworld, hdepth, hqueue, hresults, hfatal⟩ := hsource
      obtain ⟨text, hleave⟩ := Handler.leave_stop hfatal stop
      simp only [hrun, hleave]
      refine ⟨⟨hqueue, hresults, Handler.active_deactivateAll after.handler, hfatal⟩, hdepth, ?_, ?_⟩
      · rw [hvalue]
        rfl
      · rw [hvalue]
        exact hworld

/-! ### Feeding lines -/

namespace Shell

/-- The value lines of entries that are run one after the other, and the world that these leave. An entry that fails
has no value line, but what it did to the world before stays. -/
def valueLines (depth : Nat) : List String → World → List String × World
  | [], world => ([], world)
  | entry :: entries, world =>
    let result := Session.entryValue depth entry world
    let (lines, after) := valueLines depth entries (leftBy result)
    ((Session.valueLine? result).toList ++ lines, after)

/-- Takes lines in order. -/
def takeLines (shell : Shell) : List String → List Answer × Shell
  | [] => ([], shell)
  | line :: lines =>
    let (answer, shell) := shell.takeLine line
    let (answers, shell) := takeLines shell lines
    (answer :: answers, shell)

/-- The shell has run blocks of lines as entries of a session, has given some answers, and holds the other lines. -/
structure HasRun (session : Session) (blocks : List (List String)) (rest : List String) (answers : List Answer)
    (after : Shell) : Prop where
  /-- Every block has been run once and in order, and nothing else has been done in the session. -/
  session_eq : after.session =
    (blocks.map entryOf).foldl (fun session entry => (runEntry session entry).2) session
  /-- What is echoed is one value line for each entry that has a value. -/
  echoes_eq : (answers.map Answer.echo).filter (· ≠ "") =
    (valueLines session.depth (blocks.map entryOf) session.world).1
  world_eq : after.session.world = (valueLines session.depth (blocks.map entryOf) session.world).2
  goes_on : ∀ answer ∈ answers, answer.stop = false
  pending_eq : after.pending = entryOf rest
  prompt_iff : after.prompt = ". " ↔ after.pending ≠ ""
  prompt_iff_fresh : after.prompt = "> " ↔ after.pending = ""
  idle : after.session.IsIdle

variable {session : Session} {shell after : Shell} {answers : List Answer} {block : List String}

/-- A shell invites what it waits for: one more line of what is pending, or else a new entry. -/
def Invites (shell : Shell) : Prop :=
  shell.prompt = if shell.pending = "" then freshPrompt else furtherPrompt

theorem Invites.iff_further (h : shell.Invites) : shell.prompt = ". " ↔ shell.pending ≠ "" := by
  rw [h]
  by_cases hpending : shell.pending = "" <;> simp [hpending, freshPrompt, furtherPrompt]

theorem Invites.iff_fresh (h : shell.Invites) : shell.prompt = "> " ↔ shell.pending = "" := by
  rw [h]
  by_cases hpending : shell.pending = "" <;> simp [hpending, freshPrompt, furtherPrompt]

theorem invites_start (session : Session) : (start session).Invites := rfl

/-- An entry that needs more is not empty, and after any other nothing is pending, whatever came of it. -/
theorem invites_takeCode (shell : Shell) (line : String) : (shell.takeCode line).2.Invites := by
  unfold takeCode
  dsimp only
  cases hmore : needsMore (joinEntry shell.pending line) with
  | true =>
      have hne : joinEntry shell.pending line ≠ "" := by
        intro hempty
        rw [hempty] at hmore
        exact absurd hmore (by decide)
      exact (if_neg hne).symm
  | false => rfl

/-- **A shell that invites what it waits for does so after every line**, one that is a command among them. -/
theorem Invites.takeLine (h : shell.Invites) (line : String) : (shell.takeLine line).2.Invites := by
  unfold Shell.takeLine
  dsimp only
  split_ifs
  · exact h
  · exact h
  · exact h
  · exact h
  · exact invites_takeCode shell line

theorem HasRun.nil (h : shell.session.IsIdle) (hpending : shell.pending = entryOf rest) (hinvites : shell.Invites) :
    HasRun shell.session [] rest [] shell where
  session_eq := rfl
  echoes_eq := rfl
  world_eq := rfl
  goes_on := by simp
  pending_eq := hpending
  prompt_iff := hinvites.iff_further
  prompt_iff_fresh := hinvites.iff_fresh
  idle := h

/-- A line may be taken in silence. -/
theorem HasRun.silent (h : HasRun session blocks rest answers after) :
    HasRun session blocks rest (⟨false, ""⟩ :: answers) after :=
  { h with
    echoes_eq := by simpa using h.echoes_eq
    goes_on := by simpa using h.goes_on }

/-- What is echoed for an entry is its value line, if it has one. -/
theorem echo_filter_eq {entry echo : String} {next : Session} (h : session.Answers entry echo next) :
    [echo].filter (· ≠ "") = (Session.valueLine? (Session.entryValue session.depth entry session.world)).toList := by
  rw [h.echo_eq]
  cases Session.entryValue session.depth entry session.world with
  | ok value world => simp [Session.valueLine?]
  | error stop world => simp [Session.valueLine?]

theorem valueLines_of_answers {entry echo : String} {next : Session} (h : session.Answers entry echo next)
    (entries : List String) :
    valueLines session.depth (entry :: entries) session.world =
      ([echo].filter (· ≠ "") ++ (valueLines next.depth entries next.world).1,
        (valueLines next.depth entries next.world).2) := by
  rw [valueLines, echo_filter_eq h, h.depth_eq, h.world_eq]

/-- An entry that is run in an idle session may stand before the others. -/
theorem HasRun.entry (hidle : session.IsIdle)
    (h : HasRun (runEntry session (entryOf block)).2 blocks rest answers after) :
    HasRun session (block :: blocks) rest (⟨false, (runEntry session (entryOf block)).1⟩ :: answers) after := by
  have hlines := valueLines_of_answers (runEntry_answers hidle (entryOf block)) (blocks.map entryOf)
  refine ⟨h.session_eq, ?_, ?_, ?_, h.pending_eq, h.prompt_iff, h.prompt_iff_fresh, h.idle⟩
  · rw [List.map_cons, List.map_cons, hlines, ← h.echoes_eq, ← List.filter_append, List.singleton_append]
  · rw [List.map_cons, hlines, ← h.world_eq]
  · exact List.forall_mem_cons.mpr ⟨rfl, h.goes_on⟩

/-- A line that says no command is dropped if it is blank and nothing is pending. -/
theorem takeLine_blank (hpending : shell.pending = "") (hblank : Text.trim line = "") :
    shell.takeLine line = (⟨false, ""⟩, shell) := by
  have hne : line ≠ "EOF" := by
    rintro rfl
    exact absurd hblank (by decide)
  simp [takeLine, hpending, hblank, hne]

/-- Any other line that says no command belongs to an entry. -/
theorem takeLine_code (hcommand : Text.trim line ∉ ["help", "exit", "EOF"])
    (hfirst : shell.pending = "" → Text.trim line ≠ "") : shell.takeLine line = shell.takeCode line := by
  have hne : line ≠ "EOF" := by
    rintro rfl
    exact hcommand (by decide)
  simp only [List.mem_cons, List.not_mem_nil, or_false, not_or] at hcommand
  obtain ⟨hhelp, hexit, heof⟩ := hcommand
  by_cases hpending : shell.pending = ""
  · simp [takeLine, hhelp, hexit, heof, hne, hfirst hpending]
  · simp [takeLine, hpending, hne]

/-- **The state between two lines is that of the lines since the last entry.** Lines that go on from the ones held
are cut together with them. -/
theorem takeLines_of_held (hheld : IsHeld held) (hpending : shell.pending = entryOf held)
    (hidle : shell.session.IsIdle) (hinvites : shell.Invites)
    (hcommand : ∀ line ∈ lines, Text.trim line ∉ ["help", "exit", "EOF"]) :
    ∃ blocks rest, Cut (held ++ lines) blocks rest ∧
      HasRun shell.session blocks rest (shell.takeLines lines).1 (shell.takeLines lines).2 := by
  induction lines generalizing held shell with
  | nil =>
      rw [List.append_nil]
      exact ⟨[], held, .rest hheld, .nil hidle hpending hinvites⟩
  | cons line lines ih =>
      obtain ⟨hline, hlines⟩ := List.forall_mem_cons.mp hcommand
      have hempty : shell.pending = "" ↔ held = [] := hpending ▸ hheld.entryOf_eq_empty_iff
      by_cases hdropped : held = [] ∧ Text.trim line = ""
      · obtain ⟨rfl, hblank⟩ := hdropped
        obtain ⟨blocks, rest, hcut, hrun⟩ := ih hheld hpending hidle hinvites hlines
        refine ⟨blocks, rest, .blank hblank hcut, ?_⟩
        rw [takeLines, takeLine_blank (hempty.mpr rfl) hblank]
        exact hrun.silent
      · have hfirst : held = [] → Text.trim line ≠ "" := fun hnil hblank => hdropped ⟨hnil, hblank⟩
        have hafter := hinvites.takeLine line
        rw [takeLines]
        rw [takeLine_code hline (hfirst ∘ hempty.mp), takeCode, hpending, hheld.joinEntry_eq] at hafter ⊢
        cases hmore : needsMore (entryOf (held ++ [line])) with
        | true =>
            have hheld' := hheld.concat hfirst hmore
            obtain ⟨blocks, rest, hcut, hrun⟩ :=
              @ih (held ++ [line]) ⟨shell.session, entryOf (held ++ [line]), furtherPrompt⟩ hheld' rfl hidle
                (by rwa [hmore] at hafter) hlines
            rw [List.append_assoc, List.singleton_append] at hcut
            exact ⟨blocks, rest, hcut, hrun.silent⟩
        | false =>
            have hidle' := (runEntry_answers hidle (entryOf (held ++ [line]))).idle
            obtain ⟨blocks, rest, hcut, hrun⟩ :=
              @ih [] (start (runEntry shell.session (entryOf (held ++ [line]))).2) isHeld_nil rfl hidle'
                (invites_start _) hlines
            exact ⟨(held ++ [line]) :: blocks, rest, .entry hheld hfirst hmore hcut, .entry hidle hrun⟩

end Shell

/-- The session of a new shell is idle if no source was active before. -/
theorem Session.isIdle_of_prepare {handler : Handler} {depth : Nat} {files : String → Option String} {input : String}
    {session : Session} (hactive : handler.active = [])
    (h : Session.prepare handler Session.shellPath depth true none files input = .ok session) : session.IsIdle := by
  obtain rfl := Except.ok.inj h
  exact ⟨rfl, rfl, Handler.active_register hactive Session.shellPath, rfl⟩

/-- **The shell runs the entries that its lines are cut into.** Lines that say no command are cut in one way, which
keeps them as they come and drops none but blank ones. Whatever became of the entries, the shell goes on with an idle
session, it has echoed their values, it holds the lines of the entry that is not complete, and it invites one more of
these if there are any, and else a new entry. As this is so for all lists of lines, it is so after every line. -/
theorem Shell.takeLines_cut {handler : Handler} {depth : Nat} {files : String → Option String} {input : String}
    {session : Session} {lines : List String} (hactive : handler.active = [])
    (hfresh : Session.prepare handler Session.shellPath depth true none files input = .ok session)
    (hcommand : ∀ line ∈ lines, Text.trim line ∉ ["help", "exit", "EOF"]) :
    ∃ blocks rest, Cut lines blocks rest ∧
      (∀ blocks' rest', Cut lines blocks' rest' → blocks' = blocks ∧ rest' = rest) ∧
      (blocks.flatten ++ rest).Sublist lines ∧
      (blocks.flatten ++ rest).filter (Text.trim · ≠ "") = lines.filter (Text.trim · ≠ "") ∧
      HasRun session blocks rest (takeLines (start session) lines).1 (takeLines (start session) lines).2 := by
  have hidle := Session.isIdle_of_prepare hactive hfresh
  obtain ⟨blocks, rest, hcut, hrun⟩ :=
    @takeLines_of_held [] lines (start session) isHeld_nil rfl hidle (invites_start session) hcommand
  rw [List.nil_append] at hcut
  exact ⟨blocks, rest, hcut, fun blocks' rest' => hcut.unique, hcut.sublist, hcut.filter_eq, hrun⟩

/-- A line to drop, an entry over a blank line, one that is no program, one with a value, and one that is not
complete. -/
theorem Shell.takeLines_cut_mixed :
    ∃ session,
      Session.prepare (.fresh true false false) Session.shellPath 40 true none (fun _ => none) "" = .ok session ∧
      HasRun session [["x = (1", "", ")"], [")"], ["x"]] ["f("]
        (takeLines (start session) ["", "x = (1", "", ")", ")", "x", "f("]).1
        (takeLines (start session) ["", "x = (1", "", ")", ")", "x", "f("]).2 ∧
      (valueLines session.depth ["x = (1\n\n)", ")", "x"] session.world).1 = ["1\n", "1\n"] := by
  have hcut : Cut ["", "x = (1", "", ")", ")", "x", "f("] [["x = (1", "", ")"], [")"], ["x"]] ["f("] := by
    have hopen : IsHeld ["x = (1"] := isHeld_nil.concat (fun _ => by decide) (by decide)
    have hblank : IsHeld ["x = (1", ""] := hopen.concat (fun h => nomatch h) (by decide)
    have hcall : IsHeld ["f("] := isHeld_nil.concat (fun _ => by decide) (by decide)
    apply Cut.blank (by decide)
    apply Cut.entry hblank (fun h => nomatch h) (by decide)
    apply Cut.entry isHeld_nil (fun _ => by decide) (by decide)
    apply Cut.entry isHeld_nil (fun _ => by decide) (by decide)
    exact .rest hcall
  obtain ⟨blocks, rest, -, hunique, -, -, hrun⟩ :=
    @Shell.takeLines_cut (.fresh true false false) 40 (fun _ => none) "" _ ["", "x = (1", "", ")", ")", "x", "f("]
      rfl rfl (by decide)
  obtain ⟨rfl, rfl⟩ := hunique _ _ hcut
  exact ⟨_, rfl, hrun, by decide +kernel⟩

end LambdaScript
