import Planetarium.CommandLine
import Planetarium.Proofs.Data.Strict
import Planetarium.Proofs.Orbit.Angles
import Planetarium.Proofs.Scene.Textures

/-!
# Inspecting a scene

The command `inspect` reports on the scene of a document.  Once the scene is loaded nothing can go
wrong any more, but for the places of the bodies at a time: a body that has turned by an infinite
angle until then is nowhere, and there is no report at all.  No other number can prevent a report:
in JSON those that are not finite are given as words.
-/
namespace Planetarium.CommandLine
open Decimal Orbit

/-- The report says all there is to say about a scene. -/
structure Complete (commands : List Command) (bodies : List Body) (env : Environment)
    (time : Option Float) (report : Report) : Prop where
  bodies_eq : report.bodies = bodies
  textures_eq : textures commands = .ok report.textures
  env_eq : report.env = env
  placement_eq : match time with
    | none => report.placement = none
    | some time => ∃ places, positions bodies time = .ok places ∧
        report.placement = some { time, places }

/-- The report in a format. -/
def printed (format : String) (report : Report) : String :=
  if format = "json" then report.data.toStrict.json ++ "\n" else report.text

variable {files : Files} {words : List String} {settings : Settings} {path : String}
  {policy : Option Policy} {commands : List Command} {bodies : List Body} {env : Environment}
  {journal : Journal} {time : Option Float} {room : Room}

theorem exists_textures {j k : Journal}
    (h : (Body.loadAll policy commands room).go j = (.ok bodies, k)) :
    ∃ shown, textures commands = .ok shown := by
  obtain ⟨shown, hdressed⟩ := Body.dressed_of_loadAll h
  exact ⟨shown, hdressed.texturesIn_eq⟩

/-- There is a report unless a body turns endlessly until the time. -/
theorem reportOn_cases {shown : List String} (hshown : textures commands = .ok shown)
    (env : Environment) (time : Option Float) :
    (∃ report, reportOn commands bodies env time = .ok report ∧
      Complete commands bodies env time report ∧
      ∀ t ∈ time, ¬ TurnsEndlessly bodies t) ∨
    reportOn commands bodies env time = .error (.angle .infiniteAngle) ∧
      ∃ t ∈ time, TurnsEndlessly bodies t := by
  rw [reportOn, hshown]
  cases time with
  | none => exact .inl ⟨_, rfl, ⟨rfl, hshown, rfl, rfl⟩, nofun⟩
  | some t =>
    cases hplaces : positions bodies t with
    | ok places =>
      refine .inl ⟨{ bodies, textures := shown, env, placement := some { time := t, places } }, ?_,
        ⟨rfl, hshown, rfl, places, hplaces, rfl⟩, ?_⟩
      · simp only [hplaces]
        rfl
      · rintro _ ⟨⟩
        exact exists_positions_iff.mp ⟨places, hplaces⟩
    | error reason =>
      cases reason
      refine .inr ⟨?_, t, rfl, positions_eq_error_iff.mp hplaces⟩
      simp only [hplaces]
      rfl

/-- Inspecting a document whose scene can be loaded comes down to reporting on the scene. -/
theorem run_inspect
    (hwords : fileCommand files inspectSpellings ["text", "json"] { format := "text" } words =
      .ok (settings, path))
    (hpolicy : Policy.ofOptions settings.escalated settings.suppressed = .ok policy)
    (hread : Document.ofFile path (files path) { depth := settings.maxDepth, room } =
      .ok commands)
    (hload : (Body.loadAll policy commands room).go {} = (.ok bodies, journal)) :
    run files ("inspect" :: words) room =
      { outcome :=
          (reportOn commands bodies journal.env settings.time).map (printed settings.format)
        warnings := journal.warnings } := by
  change runInspect files words room = _
  simp only [runInspect, hwords, hpolicy, readDocument, hread, hload, reject, Except.mapError, bind,
    Except.bind, pure, Except.pure]
  cases reportOn commands bodies journal.env settings.time <;> rfl

/-- A file with a sun that turns, and one with a sun that stands still. -/
def sampleFiles : Files := fun path =>
  if path = "turning" then .bytes "astro S \x7b \x7d".toUTF8.toList
  else if path = "still" then .bytes "astro S \x7b omega: 0 \x7d".toUTF8.toList
  else .missing

/-- The commands of such a file. -/
def sunWith (properties : List Command) : List Command :=
  [.invocation [.word "astro", .word "S", .block properties]]

/-- Asking for the places at the end of time, for other programs. -/
def forever : Settings := { format := "json", time := some (1 / 0) }

theorem ofFile_still : Document.ofFile "still" (sampleFiles "still") { depth := 64 } =
    .ok (sunWith [.property "omega" (.expr (.number 0))]) := by
  cbv

theorem ofFile_turning :
    Document.ofFile "turning" (sampleFiles "turning") { depth := 64 } = .ok (sunWith []) := by
  cbv

/-- **Strict reports.**  All data can be made strict, and there is one way to do it: every number
that is not finite, at whatever depth, becomes the word for its value, and nothing else changes.  A
strict writer writes the outcome, and making it strict once more does nothing.  So a report in JSON
is always written, whatever numbers are in it. -/
theorem reports_strict :
    (∀ d : Data, d.toStrict.isStrict ∧ d.toStrict.strictJson? = some d.toStrict.json ∧
      (∀ e, d.Mirrors e ↔ e = d.toStrict) ∧ d.toStrict.toStrict = d.toStrict) ∧
    ∀ (files : Files) words room settings path policy commands bodies journal report,
      fileCommand files inspectSpellings ["text", "json"] { format := "text" } words =
        .ok (settings, path) →
      settings.format = "json" →
      Policy.ofOptions settings.escalated settings.suppressed = .ok policy →
      Document.ofFile path (files path) { depth := settings.maxDepth, room } = .ok commands →
      (Body.loadAll policy commands room).go {} = (.ok bodies, journal) →
      reportOn commands bodies journal.env settings.time = .ok report →
      ∃ text, report.data.toStrict.strictJson? = some text ∧
        run files ("inspect" :: words) room =
          { outcome := .ok (text ++ "\n"), warnings := journal.warnings } := by
  have hstrict := fun d : Data => d.isStrict_toStrict
  have hwritten : ∀ d : Data, d.toStrict.strictJson? = some d.toStrict.json := fun d => by
    rw [Data.strictJson?_eq, if_pos (hstrict d)]
  refine ⟨fun d => ⟨hstrict d, hwritten d, fun e => Data.mirrors_iff,
    Data.toStrict_eq_self_iff.mpr (hstrict d)⟩, ?_⟩
  intro files words room settings path policy commands bodies journal report hwords hformat hpolicy
    hread hload hreport
  refine ⟨_, hwritten report.data, ?_⟩
  rw [run_inspect hwords hpolicy hread hload, hreport, Except.map, printed, if_pos hformat]

/-- The report on an empty file, with the places at the end of time. -/
def emptyReport : Report where
  bodies := []
  textures := []
  env := .empty
  placement := some { time := 1 / 0, places := .empty }

theorem reports_strict_forever :
    ∃ text, emptyReport.data.toStrict.strictJson? = some text ∧
      run (fun _ => .bytes []) ["inspect", "--time", "inf", "--format=json", "empty"] =
        { outcome := .ok (text ++ "\n") } := by
  have hread : Document.ofFile "empty" (.bytes []) { depth := 64 } = .ok [] := by cbv
  exact reports_strict.2 (fun _ => .bytes []) ["--time", "inf", "--format=json", "empty"] .standard
    forever "empty" none [] [] {} emptyReport rfl rfl rfl hread rfl rfl

end Planetarium.CommandLine
