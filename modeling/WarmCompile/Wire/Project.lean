import WarmCompile.Project.Basic
import WarmCompile.Json.Shape

/-!
The JSON form of configurations and resolved projects.
-/

namespace WarmCompile

open Json (Shape Fields Presence)

def Language.shape : Shape Language :=
  .choice
    ([Language.javaScript, .typeScript, .python, .rust].map fun l => (l.name, l)) Language.name

def Verbosity.shape : Shape Verbosity :=
  .choice ([Verbosity.silent, .normal, .verbose].map fun v => (v.name, v)) Verbosity.name

def CompilerOptions.shape : Shape CompilerOptions :=
  .record "CompilerOptions"
    (.field "language" Language.shape .required <|
      .field "defines" (.list .text) .required <|
      .field "verbosity" Verbosity.shape .required <|
      .field "debugMode" .bool .required <|
      .field "typedArrays" .bool .required <|
      .field "optimizeAst" .bool .required <|
      .field "fileExtension" .text .required .none)
    (fun (l, ds, v, d, t, o, e, ()) => ⟨l, ds, v, d, t, o, e⟩)
    (fun o => (o.language, o.defines, o.verbosity, o.debugMode, o.typedArrays, o.optimizeAst,
      o.fileExtension, ()))

def ProjectConfig.shape : Shape ProjectConfig :=
  .record "ProjectConfig"
    (.field "projectFile" .text .required <|
      .field "rootDir" .text .required <|
      .field "outDir" (.optional .text) (.optional none) <|
      .field "fableLibrary" .text .required <|
      .field "configuration" .text .required <|
      .field "noRestore" .bool .required <|
      .field "noCache" .bool .required <|
      .field "noParallelTypeCheck" .bool .required <|
      .field "compiler" CompilerOptions.shape .required .none)
    (fun (p, r, o, l, c, nr, nc, np, k, ()) => ⟨p, r, o, l, c, nr, nc, np, k⟩)
    (fun c => (c.projectFile, c.rootDir, c.outDir, c.library, c.configuration, c.noRestore,
      c.noCache, c.noParallelTypeCheck, c.compiler, ()))

def ResolvedProject.shape : Shape ResolvedProject :=
  .record "ResolvedProject"
    (.field "projectFile" .text .required <|
      .field "sourceFiles" (.list .text) .required <|
      .field "defines" (.list .text) .required <|
      .field "targetFramework" (.optional .text) (.optional none) <|
      .field "otherOptions" (.list .text) .required <|
      .field "references" (.list .text) .required .none)
    (fun (p, s, d, t, o, r, ()) => ⟨p, s, d, t, o, r⟩)
    (fun p => (p.projectFile, p.sourceFiles, p.defines, p.targetFramework, p.otherOptions,
      p.references, ()))

end WarmCompile
