import LambdaScript.Proofs.Report.Bookkeeping
import Mathlib.Data.Option.Basic

/-!
Colour only decorates. A text with its rendition codes erased is what is there to read. Two handlers that are told
the same, one in colour and one not, write texts that read alike, step by step, and agree in all else, as long as
nothing that they are told has an escape character in it and no message puts what it shows between quotes: quoting
spells the codes out, and what is spelled out is there to read. Each coloured text is related to its bare one with
any text behind both, so that the relation is kept when texts are put together.
-/

namespace LambdaScript

/-! ### Texts without their codes -/

/-- What stands behind the rendition code at the start of a text, if there is one: an escape character, a bracket,
digits, of which there is at least one, and an `m`. -/
def behindCode? : List Char → Option (List Char)
  | '\x1b' :: '[' :: digit :: rest =>
    match digit.isDigit, rest.dropWhile Char.isDigit with
    | true, 'm' :: behind => some behind
    | _, _ => none
  | _ => none

theorem length_lt_of_behindCode? {text rest : List Char} (h : behindCode? text = some rest) :
    rest.length < text.length := by
  unfold behindCode? at h
  split at h
  · next digit others =>
      split at h
      · next hdrop =>
          have hsuffix := (List.dropWhile_suffix (l := others) Char.isDigit).length_le
          cases h
          simp only [hdrop, List.length_cons] at hsuffix ⊢
          omega
      · cases h
  · cases h

/-- Characters without the rendition codes among them, from the left. -/
def withoutCodes (text : List Char) : List Char :=
  match text with
  | [] => []
  | char :: others =>
    match _hbehind : behindCode? (char :: others) with
    | some rest => withoutCodes rest
    | none => char :: withoutCodes others
termination_by text.length
decreasing_by
  · exact length_lt_of_behindCode? ‹_›
  · exact Nat.lt_succ_self _

/-- A text without its rendition codes. -/
def eraseCodes (text : String) : String := String.ofList (withoutCodes text.toList)

/-- A text with no escape character in it. -/
def IsBare (text : String) : Prop := '\x1b' ∉ text.toList

instance (text : String) : Decidable (IsBare text) := inferInstanceAs (Decidable (_ ∉ _))

@[simp] theorem isBare_append {text text' : String} : IsBare (text ++ text') ↔ IsBare text ∧ IsBare text' := by
  simp [IsBare]

theorem isBare_join {texts : List String} (h : ∀ text ∈ texts, IsBare text) : IsBare (String.join texts) := by
  intro hmem
  obtain ⟨text, htext, hchar⟩ := List.mem_flatMap.mp (String.toList_join ▸ hmem)
  exact h text htext hchar

theorem isBare_repr (n : Nat) : IsBare n.repr := by
  intro hmem
  rw [Nat.toList_repr] at hmem
  exact absurd (Nat.isDigit_of_mem_toDigits (by decide) (by decide) hmem) (by decide)

/-- A text that reads like another once its codes are erased, whatever is behind both. -/
def Decorates (painted bare : String) : Prop :=
  ∀ rest, withoutCodes (painted.toList ++ rest) = bare.toList ++ withoutCodes rest

theorem withoutCodes_nil : withoutCodes [] = [] := by rw [withoutCodes]

theorem withoutCodes_cons {char : Char} (h : char ≠ '\x1b') (rest : List Char) :
    withoutCodes (char :: rest) = char :: withoutCodes rest := by
  have hnone : behindCode? (char :: rest) = none := by
    unfold behindCode?
    split
    · next heq => exact absurd (List.cons.inj heq).1 h
    · rfl
  rw [withoutCodes]
  split
  · next hsome =>
      rw [hnone] at hsome
      cases hsome
  · rfl

theorem withoutCodes_append {bare : List Char} (h : '\x1b' ∉ bare) (rest : List Char) :
    withoutCodes (bare ++ rest) = bare ++ withoutCodes rest := by
  induction bare with
  | nil => rfl
  | cons char bare ih =>
      obtain ⟨hchar, hbare⟩ := List.ne_and_not_mem_of_not_mem_cons h
      rw [List.cons_append, withoutCodes_cons hchar.symm, ih hbare, List.cons_append]

theorem IsBare.decorates {text : String} (h : IsBare text) : Decorates text text := withoutCodes_append h

namespace Decorates

variable {painted painted' bare bare' : String}

theorem append (h : Decorates painted bare) (h' : Decorates painted' bare') :
    Decorates (painted ++ painted') (bare ++ bare') := by
  intro rest
  rw [String.toList_append, String.toList_append, List.append_assoc, h, h', List.append_assoc]

theorem eraseCodes_eq (h : Decorates painted bare) : eraseCodes painted = bare := by
  have hread := h []
  rw [withoutCodes_nil, List.append_nil, List.append_nil] at hread
  rw [eraseCodes, hread, String.ofList_toList]

/-- A rendition code reads like nothing. -/
theorem selectRendition {code : String} (hne : code.toList ≠ []) (hdigits : code.toList.all Char.isDigit = true) :
    Decorates (selectRendition code) "" := by
  intro rest
  obtain ⟨digit, digits, hcode⟩ := List.exists_cons_of_ne_nil hne
  rw [hcode, List.all_cons, Bool.and_eq_true, List.all_eq_true] at hdigits
  obtain ⟨hdigit, hdigits⟩ := hdigits
  have htext : (LambdaScript.selectRendition code).toList ++ rest =
      '\x1b' :: '[' :: digit :: (digits ++ 'm' :: rest) := by
    simp [LambdaScript.selectRendition, hcode]
  have hbehind : behindCode? ('\x1b' :: '[' :: digit :: (digits ++ 'm' :: rest)) = some rest := by
    have hdrop : (digits ++ 'm' :: rest).dropWhile Char.isDigit = 'm' :: rest := by
      rw [List.dropWhile_append_of_pos hdigits, List.dropWhile_cons_of_neg (by decide)]
    simp only [behindCode?, hdigit, hdrop]
  rw [htext, withoutCodes]
  split
  · next hsome =>
      rw [hbehind] at hsome
      cases hsome
      rfl
  · next hnone =>
      rw [hbehind] at hnone
      cases hnone

theorem paint (weight : Weight) (hue : Option Hue) {text : String} (h : IsBare text) :
    Decorates (paint true weight hue text) (paint false weight hue text) := by
  have hweight : Decorates (LambdaScript.selectRendition weight.code) "" := by
    cases weight <;> exact selectRendition (by decide) (by decide)
  have hhue : Decorates ((hue.map fun hue => LambdaScript.selectRendition hue.code).getD "") "" := by
    cases hue with
    | none => exact IsBare.decorates (by decide)
    | some hue => cases hue <;> exact selectRendition (by decide) (by decide)
  have hreset : Decorates (LambdaScript.selectRendition "0") "" :=
    selectRendition (by decide) (by decide)
  have hall := ((hweight.append hhue).append h.decorates).append hreset
  rw [String.empty_append, String.empty_append, String.append_empty] at hall
  cases hue <;> exact hall

end Decorates

/-! ### Texts that a handler writes -/

def Piece.text : Piece → String
  | plain text | shown text | quoted text => text

def Piece.isQuoted : Piece → Bool
  | quoted _ => true
  | plain _ | shown _ => false

namespace Cause

/-- The parts of a message whose wording is the cause's own. -/
def ownPieces : Cause → List Piece
  | worded _ pieces .. => pieces
  | _ => []

/-- The texts that a cause brings in: its own wording, and what it speaks of. -/
def texts (cause : Cause) : List String := cause.ownPieces.map Piece.text ++ cause.shown

/-- A message that puts nothing between quotes, if its wording is its own. -/
def IsPlain (cause : Cause) : Prop := ∀ piece ∈ cause.ownPieces, piece.isQuoted = false

instance (cause : Cause) : Decidable cause.IsPlain := inferInstanceAs (Decidable (∀ _ ∈ _, _))

/-- Wording that is not a cause's own is bare. -/
theorem isBare_wording {cause : Cause} (hown : cause.ownPieces = []) :
    ∀ text, Piece.plain text ∈ cause.pieces → IsBare text := by
  cases cause with
  | worded family pieces =>
      obtain rfl : pieces = [] := hown
      exact fun text htext => absurd htext List.not_mem_nil
  | _ => simp [pieces, IsBare, or_imp, forall_and]

/-- The pieces of a message are bare and not between quotes, if the texts that its cause brings in are bare and it is
plain. -/
theorem isBare_of_mem_pieces {cause : Cause} (h : ∀ text ∈ cause.texts, IsBare text) (hplain : cause.IsPlain) :
    ∀ piece ∈ cause.pieces, IsBare piece.text ∧ piece.isQuoted = false := by
  intro piece hpiece
  cases cause with
  | worded family pieces =>
      exact ⟨h piece.text (List.mem_append_left _ (List.mem_map_of_mem hpiece)), hplain piece hpiece⟩
  | _ =>
      cases piece with
      | plain text => exact ⟨isBare_wording rfl text hpiece, rfl⟩
      | shown text =>
          refine ⟨h text (List.mem_append_right _ (List.mem_append_left _ ?_)), rfl⟩
          exact List.mem_filterMap.mpr ⟨.shown text, hpiece, rfl⟩
      | quoted text => simp [pieces] at hpiece

end Cause

theorem renderPieces_decorates {pieces : List Piece}
    (h : ∀ piece ∈ pieces, IsBare piece.text ∧ piece.isQuoted = false) :
    Decorates (renderPieces true pieces) (renderPieces false pieces) := by
  induction pieces with
  | nil => exact IsBare.decorates (by decide)
  | cons piece pieces ih =>
      obtain ⟨⟨hbare, hunquoted⟩, hpieces⟩ := List.forall_mem_cons.mp h
      simp only [renderPieces, List.map_cons, String.join_cons]
      refine Decorates.append ?_ (ih hpieces)
      cases piece with
      | plain text => exact IsBare.decorates hbare
      | shown text => exact Decorates.paint .bold none hbare
      | quoted text => cases hunquoted

theorem Position.isBare_text (pos : Position) : IsBare pos.text := by
  simp only [Position.text, isBare_append, isBare_repr, and_true, true_and]
  decide

/-- **The message of a fault in colour reads like its bare message.** -/
theorem Fault.render_decorates {fault : Fault} (h : ∀ text ∈ fault.cause.texts, IsBare text)
    (hplain : fault.cause.IsPlain) : Decorates (fault.render true) (fault.render false) := by
  have hmessage := renderPieces_decorates (Cause.isBare_of_mem_pieces h hplain)
  unfold render
  cases fault.pos with
  | none => exact hmessage
  | some pos =>
      have hplace : IsBare (" (" ++ pos.text ++ ")") := by
        simp only [isBare_append, pos.isBare_text, and_true]
        decide
      simpa only [String.append_assoc] using hmessage.append hplace.decorates

/-- **A diagnosis in colour reads like the bare one**, and there is one in both cases or in neither. -/
theorem diagnosis_decorates (hue : Hue) (pos : Option Position) {lines : List (List Char)}
    (h : ∀ line ∈ lines, '\x1b' ∉ line) :
    Option.Rel Decorates (diagnosis true hue pos lines) (diagnosis false hue pos lines) := by
  rcases pos with - | ⟨- | number, column⟩
  · exact .none
  · exact .none
  · cases hline : lines[number]? with
    | none =>
        simp only [diagnosis, hline, Option.map_none]
        exact .none
    | some line =>
        simp only [diagnosis, hline, Option.map_some]
        generalize min column line.length = cut
        have hbare {chars : List Char} (hsub : chars ⊆ line) : IsBare (String.ofList chars) := by
          simpa [IsBare] using fun hmem => h line (List.mem_of_getElem? hline) (hsub hmem)
        have hbefore := (hbare (List.take_subset cut line)).decorates
        have hmark := Decorates.paint .bold (some hue)
          (hbare fun _ hmem => List.drop_subset cut line (List.take_subset 1 (line.drop cut) hmem))
        have hbehind := (hbare (List.drop_subset (cut + 1) line)).decorates
        have hindent : Decorates "  " "  " := IsBare.decorates (by decide)
        have hnewline : Decorates "\n" "\n" := IsBare.decorates (by decide)
        have hspaces : IsBare (String.ofList (List.replicate cut ' ')) := by simp [IsBare]
        have hcaret := Decorates.paint .bold (some hue) (show IsBare "^" by decide)
        have hupper := ((hindent.append hbefore).append hmark).append hbehind
        exact .some ((((hupper.append hnewline).append hindent).append hspaces.decorates).append hcaret)

/-- A character on a line is one of the text, or was on the line before. -/
theorem Text.mem_of_mem_linesFrom {line cs : List Char} {char : Char} {found : List Char}
    (hfound : found ∈ linesFrom line cs) (hchar : char ∈ found) : char ∈ line ∨ char ∈ cs := by
  induction cs generalizing line with
  | nil =>
      obtain rfl := List.mem_singleton.mp hfound
      exact .inl (List.mem_reverse.mp hchar)
  | cons c cs ih =>
      rw [linesFrom] at hfound
      split at hfound
      · rcases List.mem_cons.mp hfound with rfl | hrest
        · exact .inl (List.mem_reverse.mp hchar)
        · exact .inr (List.mem_cons_of_mem c ((ih hrest).resolve_left List.not_mem_nil))
      · rcases ih hfound with hline | hrest
        · rcases List.mem_cons.mp hline with rfl | hline
          · exact .inr List.mem_cons_self
          · exact .inl hline
        · exact .inr (List.mem_cons_of_mem c hrest)

namespace Handler

theorem isBare_fileList {paths : List String} (h : ∀ path ∈ paths, IsBare path) (fault : Fault) :
    IsBare (fileList paths fault) := by
  have hentry : ∀ path ∈ paths,
      IsBare ("  File '" ++ path ++ "', line " ++ (reportedLine fault).repr ++ ":\n") := by
    intro path hpath
    simp only [isBare_append, h path hpath, isBare_repr, and_true]
    decide
  unfold fileList
  split
  · decide
  · refine isBare_append.mpr ⟨by decide, isBare_join fun text htext => ?_⟩
    obtain ⟨path, hpath, rfl⟩ := List.mem_map.mp htext
    exact hentry path hpath

theorem account_decorates {fault : Fault} (hfault : ∀ text ∈ fault.cause.texts, IsBare text)
    (hplain : fault.cause.IsPlain) {lines : List (List Char)} (hlines : ∀ line ∈ lines, '\x1b' ∉ line) :
    Decorates (account true fault lines) (account false fault lines) := by
  have hnewline : Decorates "\n" "\n" := IsBare.decorates (by decide)
  have hinternal : Decorates (if fault.cause.isInternal then paint true .bold (some .red) "[internal] " else "")
      (if fault.cause.isInternal then paint false .bold (some .red) "[internal] " else "") := by
    split
    · exact .paint _ _ (by decide)
    · exact IsBare.decorates (by decide)
  have herror : Decorates (paint true .bold (some .red) "error: ") (paint false .bold (some .red) "error: ") :=
    .paint _ _ (by decide)
  have hmessage := ((hinternal.append herror).append (Fault.render_decorates hfault hplain)).append hnewline
  have hdiagnosis := diagnosis_decorates .red fault.pos hlines
  unfold account
  dsimp only
  split
  · exact hmessage
  · generalize diagnosis true .red fault.pos lines = painted at hdiagnosis ⊢
    generalize diagnosis false .red fault.pos lines = bare at hdiagnosis ⊢
    cases hdiagnosis with
    | none => exact hmessage
    | some hread => exact (hmessage.append hread).append hnewline

/-- The fault that a step speaks of. -/
def Step.told? : Step → Option Fault
  | warn fault => some fault
  | step => step.reported?

/-- The texts that a step brings in. -/
def Step.texts : Step → List String
  | register path | deactivate path => [path]
  | activate path source => [path, source]
  | stage name text => [name, text]
  | step => (step.told?.map fun fault => fault.cause.texts).getD []

/-- A step whose message, if it has one, is plain. -/
def Step.IsPlain (step : Step) : Prop := ∀ fault ∈ step.told?, fault.cause.IsPlain

instance (step : Step) : Decidable step.IsPlain := Option.decidableForallMem step.told?

/-- A handler none of whose paths, active sources and stored lines has an escape character. -/
structure KnowsBare (handler : Handler) : Prop where
  files : ∀ file ∈ handler.files, IsBare file.1 ∧ ∀ source ∈ file.2, IsBare source
  lines : ∀ entry ∈ handler.lines, ∀ line ∈ entry.2, '\x1b' ∉ line

/-- The same handler, with reports in colour or without. -/
def inColour (handler : Handler) (coloured : Bool) : Handler := { handler with coloured := coloured }

variable {handler : Handler} {step : Step}

theorem Step.told?_of_reported {fault : Fault} (h : step.reported? = some fault) :
    step.told? = some fault ∧ step.texts = fault.cause.texts := by
  cases step with
  | throw fault =>
      cases h
      exact ⟨rfl, rfl⟩
  | leave departure =>
      have htold : (leave departure).told? = some fault := h
      refine ⟨htold, ?_⟩
      rw [texts, htold]
      · rfl
      all_goals nofun
  | register | activate | deactivate | stage | warn => cases h

theorem Step.isBare_entry (hstep : ∀ text ∈ step.texts, IsBare text) {path : String} {source : Option String}
    (h : step.entry? = some (path, source)) : IsBare path ∧ ∀ text ∈ source, IsBare text := by
  cases step with
  | register | deactivate =>
      cases h
      exact ⟨hstep _ List.mem_cons_self, fun text htext => by cases htext⟩
  | activate path source =>
      cases h
      refine ⟨hstep _ List.mem_cons_self, fun text htext => ?_⟩
      cases htext
      exact hstep _ (List.mem_cons_of_mem _ List.mem_cons_self)
  | stage | warn | throw | leave => cases h

theorem Step.isBare_lines (hstep : ∀ text ∈ step.texts, IsBare text) {path : String} {lines : List (List Char)}
    (h : step.lines? = some (path, lines)) : ∀ line ∈ lines, '\x1b' ∉ line := by
  cases step with
  | activate path source =>
      cases h
      intro line hline hmem
      refine hstep source (List.mem_cons_of_mem _ List.mem_cons_self) ?_
      exact (Text.mem_of_mem_linesFrom hline hmem).resolve_left List.not_mem_nil
  | register | deactivate | stage | warn | throw | leave => cases h

/-- A step that brings in bare texts leaves bare texts. -/
theorem KnowsBare.perform (h : handler.KnowsBare) (hstep : ∀ text ∈ step.texts, IsBare text) :
    (handler.perform step).2.2.KnowsBare := by
  cases hreported : step.reported? with
  | some fault =>
      rw [perform_of_reported hreported, afterReport]
      split
      · exact h
      · refine ⟨fun file hfile => ?_, h.lines⟩
        obtain ⟨known, hknown, rfl⟩ := List.mem_map.mp hfile
        exact ⟨(h.files known hknown).1, fun source hsource => by cases hsource⟩
  | none =>
      rw [perform_of_not_reported hreported]
      constructor
      · cases hentry : step.entry? with
        | none => exact h.files
        | some entry =>
            intro file hfile
            rcases mem_setEntry hfile with rfl | hknown
            · exact Step.isBare_entry hstep hentry
            · exact h.files file hknown
      · cases hlines : step.lines? with
        | none => exact h.lines
        | some stored =>
            intro entry hentry
            rcases mem_setEntry hentry with rfl | hknown
            · exact Step.isBare_lines hstep hlines
            · exact h.lines entry hknown

theorem mem_of_lookup {α : Type} {entries : List (String × α)} {path : String} {value : α}
    (h : entries.lookup path = some value) : (path, value) ∈ entries := by
  obtain ⟨before, behind, rfl, -⟩ := List.lookup_eq_some_iff.mp h
  exact List.mem_append_right _ List.mem_cons_self

theorem KnowsBare.sourceLines (h : handler.KnowsBare) : ∀ line ∈ handler.sourceLines, '\x1b' ∉ line := by
  unfold Handler.sourceLines
  split
  · next file _ =>
      cases hlines : handler.lines.lookup file.1 with
      | none => exact fun line hline => absurd hline List.not_mem_nil
      | some lines => exact h.lines (file.1, lines) (mem_of_lookup hlines)
  · exact fun line hline => absurd hline List.not_mem_nil

/-- **A report in colour reads like the bare report.** -/
theorem KnowsBare.report_decorates (h : handler.KnowsBare) {fault : Fault}
    (hfault : ∀ text ∈ fault.cause.texts, IsBare text) (hplain : fault.cause.IsPlain) :
    Decorates ((handler.inColour true).report fault) ((handler.inColour false).report fault) := by
  have hpaths : ∀ path ∈ handler.active.map Prod.fst, IsBare path := by
    intro path hpath
    obtain ⟨file, hfile, rfl⟩ := List.mem_map.mp hpath
    obtain ⟨known, hknown, hsource⟩ := List.mem_filterMap.mp hfile
    obtain ⟨source, -, rfl⟩ := Option.map_eq_some_iff.mp hsource
    exact (h.files known hknown).1
  rw [report_eq, report_eq, traceback_eq, traceback_eq]
  exact (isBare_fileList hpaths fault).decorates.append (account_decorates hfault hplain h.sourceLines)

/-- Whether reports are in colour has no part in what follows a step and in what is known afterwards. -/
theorem perform_inColour (handler : Handler) (step : Step) (coloured : Bool) :
    ((handler.inColour coloured).perform step).2 =
      ((handler.perform step).2.1, (handler.perform step).2.2.inColour coloured) := by
  cases hreported : step.reported? with
  | some fault =>
      rw [perform_of_reported hreported, perform_of_reported hreported]
      unfold afterReport
      cases hfatal : handler.fatal <;> simp [inColour, hfatal, deactivateAll]
  | none =>
      rw [perform_of_not_reported hreported, perform_of_not_reported hreported]
      cases step.entry? <;> rfl

/-- **What a step writes in colour reads like what it writes without.** -/
theorem KnowsBare.perform_decorates (h : handler.KnowsBare) (hstep : ∀ text ∈ step.texts, IsBare text)
    (hplain : step.IsPlain) :
    Decorates ((handler.inColour true).perform step).1 ((handler.inColour false).perform step).1 := by
  have hnothing : Decorates "" "" := IsBare.decorates (by decide)
  have hnewline : Decorates "\n" "\n" := IsBare.decorates (by decide)
  cases hreported : step.reported? with
  | some fault =>
      rw [perform_of_reported hreported, perform_of_reported hreported]
      obtain ⟨htold, htexts⟩ := Step.told?_of_reported hreported
      exact h.report_decorates (htexts ▸ hstep) (hplain _ htold)
  | none =>
      cases step with
      | register | activate | deactivate => exact hnothing
      | stage name text =>
          have hname : IsBare ("[" ++ name ++ "] ") := by
            simp only [isBare_append, hstep name List.mem_cons_self, and_true]
            decide
          have htext : IsBare text := hstep text (List.mem_cons_of_mem name List.mem_cons_self)
          obtain ⟨fatal, verbose, coloured, files, lines⟩ := handler
          cases verbose with
          | true => exact ((Decorates.paint _ _ hname).append (.paint _ _ htext)).append hnewline
          | false => exact hnothing
      | warn fault =>
          have hhead : IsBare "warning: " := by decide
          exact ((Decorates.paint _ _ hhead).append (Fault.render_decorates hstep (hplain fault rfl))).append hnewline
      | throw => cases hreported
      | leave departure =>
          cases departure with
          | normal | quit => exact hnothing
          | fault | tooDeep | interrupted | hostFailure => cases hreported

/-- What is seen of some steps: of each, the text it writes and what follows. -/
def seen (handler : Handler) : List Step → List (String × Ending)
  | [] => []
  | step :: steps =>
    ((handler.perform step).1, (handler.perform step).2.1) :: (handler.perform step).2.2.seen steps

/-- All that some steps write. -/
def written (handler : Handler) (steps : List Step) : String := String.join ((handler.seen steps).map Prod.fst)

/-- **What is seen of some steps in colour reads like what is seen without, and the handlers go on alike.** -/
theorem KnowsBare.seen_decorates (h : handler.KnowsBare) {steps : List Step}
    (hsteps : ∀ step ∈ steps, ∀ text ∈ step.texts, IsBare text) (hplain : ∀ step ∈ steps, step.IsPlain) :
    Decorates ((handler.inColour true).written steps) ((handler.inColour false).written steps) ∧
      ((handler.inColour true).seen steps).map (fun seen => (eraseCodes seen.1, seen.2)) =
        (handler.inColour false).seen steps ∧
      (handler.inColour true).after steps = ((handler.inColour false).after steps).inColour true := by
  induction steps generalizing handler with
  | nil => exact ⟨(show IsBare "" by decide).decorates, rfl, rfl⟩
  | cons step steps ih =>
      obtain ⟨hstep, hrest⟩ := List.forall_mem_cons.mp hsteps
      obtain ⟨hplain, hplainRest⟩ := List.forall_mem_cons.mp hplain
      obtain ⟨hwritten, hseen, hafter⟩ := ih (h.perform hstep) hrest hplainRest
      have htext := h.perform_decorates hstep hplain
      have hnext (coloured : Bool) : ((handler.inColour coloured).perform step).2 =
          ((handler.perform step).2.1, (handler.perform step).2.2.inColour coloured) :=
        perform_inColour handler step coloured
      refine ⟨?_, ?_, ?_⟩
      · simp only [written, seen, List.map_cons, String.join_cons, hnext]
        exact htext.append hwritten
      · simp only [seen, List.map_cons, hnext, htext.eraseCodes_eq, hseen]
      · simp only [after, List.foldl_cons, hnext]
        exact hafter

/-- **Colour only decorates.** If no text that some steps bring in has an escape character, and no message with wording
of its own puts anything between quotes, then what the steps write in colour is, without its rendition codes, what they
write without colour; what follows each step is the same, and so is the handler at the end. The message of a fault reads
alike as well. -/
theorem colour_only_decorates (fatal verbose : Bool) (steps : List Step)
    (hsteps : ∀ step ∈ steps, ∀ text ∈ step.texts, IsBare text) (hplain : ∀ step ∈ steps, step.IsPlain) :
    let coloured := fresh fatal verbose true
    let bare := fresh fatal verbose false
    eraseCodes (coloured.written steps) = bare.written steps ∧
      (coloured.seen steps).map (fun seen => (eraseCodes seen.1, seen.2)) = bare.seen steps ∧
      coloured.after steps = { bare.after steps with coloured := true } ∧
      ∀ fault : Fault, (∀ text ∈ fault.cause.texts, IsBare text) → fault.cause.IsPlain →
        eraseCodes (fault.render true) = fault.render false := by
  intro coloured bare
  have hbare : bare.KnowsBare := by
    constructor
    · exact fun file hfile => absurd hfile List.not_mem_nil
    · exact fun entry hentry => absurd hentry List.not_mem_nil
  obtain ⟨hwritten, hseen, hafter⟩ := hbare.seen_decorates hsteps hplain
  refine ⟨hwritten.eraseCodes_eq, hseen, hafter, fun fault hfault hfaultPlain => ?_⟩
  exact (Fault.render_decorates hfault hfaultPlain).eraseCodes_eq

/-- A fault in a program that a handler has been told of, and a warning from a template. -/
theorem colour_only_decorates_undefined :
    ∃ cause, Cause.ofTemplate? .general "\x7b\x7b\x7d\x7d ignored: \x7b\x7d" ["a.ulc"] true false = some cause ∧
      let steps : List Step :=
        [.activate "a.ulc" "x", .warn ⟨cause, none⟩, .throw ⟨.undefinedVariable "x", some ⟨1, 0⟩⟩]
      (∀ step ∈ steps, ∀ text ∈ step.texts, IsBare text) ∧ (∀ step ∈ steps, step.IsPlain) ∧
        eraseCodes ((fresh false false true).written steps) = "warning: \x7b\x7d ignored: a.ulc\n" ++
          "Traceback:\n  File 'a.ulc', line 1:\nerror: Undefined variable 'x' (1:0)\n  x\n  ^\n" := by
  refine ⟨.worded .general [.plain "\x7b\x7d ignored: ", .shown "a.ulc", .plain ""] [] true false, by decide, ?_⟩
  intro steps
  have hsteps : ∀ step ∈ steps, ∀ text ∈ step.texts, IsBare text := by decide
  have hplain : ∀ step ∈ steps, step.IsPlain := by decide
  exact ⟨hsteps, hplain, (colour_only_decorates false false steps hsteps hplain).1.trans (by decide)⟩

/-- A template may ask for a text between quotes. In colour the codes of the text are spelled out between them, so that
erasing the codes of what is written does not give what is written without colour. -/
theorem colour_spelled_out :
    ∃ cause, Cause.ofTemplate? .general "\x7b!r\x7d" ["x"] true false = some cause ∧
      let steps : List Step := [.warn ⟨cause, none⟩]
      (∀ step ∈ steps, ∀ text ∈ step.texts, IsBare text) ∧
        Fault.render false ⟨cause, none⟩ = "'x'" ∧ Fault.render true ⟨cause, none⟩ = "'\\x1b[1mx\\x1b[0m'" ∧
        eraseCodes (Fault.render true ⟨cause, none⟩) ≠ Fault.render false ⟨cause, none⟩ ∧
        eraseCodes ((fresh true false true).written steps) ≠ (fresh true false false).written steps := by
  let fault : Fault := ⟨.worded .general [.plain "", .quoted "x", .plain ""] [] true false, none⟩
  have hpainted : fault.render true = "'\\x1b[1mx\\x1b[0m'" := by decide
  have hread : Decorates (fault.render true) (fault.render true) := IsBare.decorates (by decide)
  have hwarning : Decorates ((fresh true false true).written [.warn fault])
      ("" ++ ("warning: " ++ fault.render true ++ "\n")) := by
    have hhead : Decorates (paint true .bold (some .magenta) "warning: ") "warning: " := .paint _ _ (by decide)
    exact (IsBare.decorates (by decide)).append ((hhead.append hread).append (IsBare.decorates (by decide)))
  refine ⟨fault.cause, by decide, by decide, by decide, hpainted, ?_, ?_⟩
  · rw [hread.eraseCodes_eq, hpainted]
    decide
  · rw [hwarning.eraseCodes_eq, hpainted]
    decide

end Handler

end LambdaScript
