import WarmCompile.Config.Settings
import WarmCompile.Proofs.Json.Remnant
import WarmCompile.Proofs.Json.Typed

/-!
Settings of which only a part is written down: every member that is left out has its default,
whether it is left out alone or with all that stands around it, and what else is written down is
ignored.
-/

namespace WarmCompile

open Json (Left Remnant Told beyond)

/-! ### Settings of which a part is kept -/

/-- The settings as they are where they are kept, and the defaults everywhere else. -/
def DaemonSettings.restrict (kept : List String → Bool) (s : DaemonSettings) : DaemonSettings :=
  let d : Config := {}
  { logLevel := if kept ["log_level"] then s.logLevel else d.daemon.logLevel
    logRotation := if kept ["log_rotation"] then s.logRotation else d.daemon.logRotation
    mailboxCapacity :=
      if kept ["mailbox_capacity"] then s.mailboxCapacity else d.daemon.mailboxCapacity }

def CompilerSettings.restrict (kept : List String → Bool) (s : CompilerSettings) :
    CompilerSettings :=
  let d : Config := {}
  { command := if kept ["command"] then s.command else d.compiler.command
    args := if kept ["args"] then s.args else d.compiler.args
    env := if kept ["env"] then s.env.restrict fun key => kept ["env", key] else d.compiler.env }

def Config.restrict (kept : List String → Bool) (c : Config) : Config :=
  let d : Config := {}
  { daemon :=
      if kept ["daemon"] then c.daemon.restrict fun path => kept ("daemon" :: path) else d.daemon
    compiler :=
      if kept ["compiler"] then c.compiler.restrict fun path => kept ("compiler" :: path)
      else d.compiler }

section

variable {kept extended : List String → Bool} {j : Json}

theorem DaemonSettings.toJson_eq (s : DaemonSettings) : shape.toJson s = .object
    [("log_level", .text s.logLevel), ("log_rotation", .text s.logRotation),
      ("mailbox_capacity", .number (.natural s.mailboxCapacity))] :=
  rfl

theorem DaemonSettings.ofJson_remnant {s : DaemonSettings}
    (h : Remnant kept extended (shape.toJson s) j) :
    shape.ofJson j = .ok (s.restrict kept) := by
  obtain ⟨ms, rfl⟩ := h.exists_object
  rw [toJson_eq] at h
  have hlevel : Told ms "log_level" (kept ["log_level"]) Json.Shape.text.ofJson s.logLevel :=
    h.told_leaf rfl (by simp) rfl
  have hrotation : Told ms "log_rotation" (kept ["log_rotation"]) Json.Shape.text.ofJson
      s.logRotation :=
    h.told_leaf rfl (by simp) rfl
  have hcapacity : Told ms "mailbox_capacity" (kept ["mailbox_capacity"]) Json.Shape.size.ofJson
      s.mailboxCapacity :=
    h.told_leaf rfl (by simp) rfl
  exact Json.recordOf_object.2 ⟨_, Json.ofMembers_defaulted hlevel <|
    Json.ofMembers_defaulted (hrotation.filter_ne (by decide)) <|
    Json.ofMembers_defaulted ((hcapacity.filter_ne (by decide)).filter_ne (by decide)) <|
    Json.ofMembers_none _, rfl⟩

theorem CompilerSettings.toJson_eq (s : CompilerSettings) : shape.toJson s = .object
    [("command", (Json.Shape.optional .text).toJson s.command),
      ("args", (Json.Shape.list .text).toJson s.args),
      ("env", Json.Shape.dictionary.toJson s.env)] :=
  rfl

theorem CompilerSettings.ofJson_remnant {s : CompilerSettings} (hclosed : extended ["env"] = false)
    (h : Remnant kept extended (shape.toJson s) j) :
    shape.ofJson j = .ok (s.restrict kept) := by
  obtain ⟨ms, rfl⟩ := h.exists_object
  rw [toJson_eq] at h
  have hcommand : Told ms "command" (kept ["command"]) (Json.Shape.optional .text).ofJson
      s.command := by
    refine h.told_leaf rfl ?_ ?_
    · cases s.command with
      | none => simp [Json.Shape.toJson]
      | some _ => simp [Json.Shape.toJson]
    · cases s.command with
      | none => rfl
      | some _ => rfl
  have hargs : Told ms "args" (kept ["args"]) (Json.Shape.list .text).ofJson s.args :=
    h.told_leaf rfl (by simp [Json.Shape.toJson]) (Json.itemsOf_map fun _ _ => rfl)
  have henv : Told ms "env" (kept ["env"]) Json.Shape.dictionary.ofJson
      (s.env.restrict fun key => kept ["env", key]) :=
    h.told rfl fun j hj => Json.dictionaryOf_remnant hclosed hj
  exact Json.recordOf_object.2 ⟨_, Json.ofMembers_defaulted hcommand <|
    Json.ofMembers_defaulted (hargs.filter_ne (by decide)) <|
    Json.ofMembers_defaulted ((henv.filter_ne (by decide)).filter_ne (by decide)) <|
    Json.ofMembers_none _, rfl⟩

theorem Config.toJson_eq (c : Config) : shape.toJson c = .object
    [("daemon", DaemonSettings.shape.toJson c.daemon),
      ("compiler", CompilerSettings.shape.toJson c.compiler)] :=
  rfl

theorem Config.ofJson_remnant {c : Config} (h : Remnant kept extended (shape.toJson c) j)
    (hclosed : extended ["compiler", "env"] = false) :
    shape.ofJson j = .ok (c.restrict kept) := by
  obtain ⟨ms, rfl⟩ := h.exists_object
  rw [toJson_eq] at h
  have hdaemon : Told ms "daemon" (kept ["daemon"]) DaemonSettings.shape.ofJson _ :=
    h.told rfl fun j hj => DaemonSettings.ofJson_remnant hj
  have hcompiler : Told ms "compiler" (kept ["compiler"]) CompilerSettings.shape.ofJson _ :=
    h.told rfl fun j hj => CompilerSettings.ofJson_remnant hclosed hj
  exact Json.recordOf_object.2 ⟨_, Json.ofMembers_defaulted hdaemon <|
    Json.ofMembers_defaulted (hcompiler.filter_ne (by decide)) <| Json.ofMembers_none _, rfl⟩

end

theorem Config.restrict_true (c : Config) : c.restrict (fun _ => true) = c := by
  have henv := c.compiler.env.restrict_true
  simp only [restrict, DaemonSettings.restrict, CompilerSettings.restrict, if_true, henv]

/-! ### Settings written and read -/

theorem CompilerSettings.fits (s : CompilerSettings) : shape.Fits s := by
  refine ⟨rfl, by decide, ?_, nofun, fun _ _ => trivial, nofun, trivial, nofun, trivial⟩
  cases s.command with
  | none => exact trivial
  | some command => exact ⟨nofun, trivial⟩

theorem DaemonSettings.fits {s : DaemonSettings} (h : s.mailboxCapacity < 0x10000000000000000) :
    shape.Fits s :=
  ⟨rfl, by decide, trivial, nofun, trivial, nofun, h, nofun, trivial⟩

theorem Config.fits {c : Config} (h : c.daemon.mailboxCapacity < 0x10000000000000000) :
    shape.Fits c :=
  ⟨rfl, by decide, DaemonSettings.fits h, nofun, c.compiler.fits, nofun, trivial⟩

theorem Config.parse_of_parse {text : String} {j : Json} {c : Config} (h : Json.parse text = .ok j)
    (hj : shape.ofJson j = .ok c) : shape.parse text = .ok c :=
  Json.Shape.parse_of_parse ⟨⟨trivial, trivial, trivial, trivial⟩,
    ⟨trivial, trivial, trivial, trivial⟩, trivial⟩ h hj

theorem Config.parse_compact {c : Config} (h : c.daemon.mailboxCapacity < 0x10000000000000000) :
    Json.parse (shape.toJson c).compact = .ok (shape.toJson c) :=
  Json.parse_compact ((Json.Shape.legible shape c (fits h)).mono (by decide))

/-- The objects of the settings where a key can be unknown: in the environment none is. -/
def Config.extended (path : List String) : Bool :=
  [[], ["daemon"], ["compiler"]].contains path

/-- How settings are read of which only a part may be written down. -/
structure Config.FallsBack (c : Config) : Prop where
  /-- What is kept is as it was, and all else has its default: where the members of all objects
  stand and which others are among them makes no difference. -/
  ofJson {kept : List String → Bool} {j : Json} (h : Remnant kept extended (shape.toJson c) j) :
    shape.ofJson j = .ok (c.restrict kept)
  /-- It is the same for every text that such settings are. -/
  parse {kept : List String → Bool} {j : Json} {text : String}
    (h : Remnant kept extended (shape.toJson c) j) (htext : Json.parse text = .ok j) :
    shape.parse text = .ok (c.restrict kept)
  /-- Where all is kept, the settings come back. -/
  ofJson_toJson : shape.ofJson (shape.toJson c) = .ok c
  parse_compact (h : c.daemon.mailboxCapacity < 0x10000000000000000) :
    shape.parse (shape.toJson c).compact = .ok c

theorem Config.fallsBack (c : Config) : c.FallsBack := by
  have hread : ∀ {kept j}, Remnant kept extended (shape.toJson c) j →
      shape.ofJson j = .ok (c.restrict kept) := fun h => ofJson_remnant h rfl
  have hwhole : shape.ofJson (shape.toJson c) = .ok c := by
    rw [hread (.refl extended _), restrict_true]
  exact {
    ofJson := hread
    parse := fun h htext => parse_of_parse htext (hread h)
    ofJson_toJson := hwhole
    parse_compact := fun h => parse_of_parse (parse_compact h) hwhole }

/-- Nothing but the rotation of the log. -/
def Config.rotation (path : List String) : Bool :=
  [["daemon"], ["daemon", "log_rotation"]].contains path

theorem Config.fallsBack_rotation : shape.ofJson (.object [("theme", .null),
    ("daemon", .object [("verbose", .bool true), ("log_rotation", .text "hourly")])]) =
      .ok { daemon := { logRotation := "hourly" } } := by
  have hleft : Left (beyond "daemon" rotation) (beyond "daemon" extended)
      [("log_level", .text "debug"), ("log_rotation", .text "hourly"),
        ("mailbox_capacity", .number (.natural 8))] [("log_rotation", .text "hourly")] :=
    .gone rfl (.kept rfl (.leaf (by simp)) (.gone rfl .nil))
  have hdaemon : Remnant (beyond "daemon" rotation) (beyond "daemon" extended)
      (DaemonSettings.shape.toJson ⟨"debug", "hourly", 8⟩)
      (.object [("verbose", .bool true), ("log_rotation", .text "hourly")]) :=
    .object hleft (by decide) (.swap _ _ [])
  have hremnant : Remnant rotation extended
      (shape.toJson ⟨⟨"debug", "hourly", 8⟩, ⟨some "emit", ["--fast"], .empty⟩⟩)
      (.object [("theme", .null),
        ("daemon", .object [("verbose", .bool true), ("log_rotation", .text "hourly")])]) :=
    .object (.kept rfl hdaemon (.gone rfl .nil)) (by decide) (.swap _ _ [])
  exact (fallsBack ⟨⟨"debug", "hourly", 8⟩, ⟨some "emit", ["--fast"], .empty⟩⟩).ofJson hremnant

end WarmCompile
