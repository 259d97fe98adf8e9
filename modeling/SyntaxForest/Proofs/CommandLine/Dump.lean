import SyntaxForest.CommandLine.Report
import SyntaxForest.Proofs.Document.Nesting
import SyntaxForest.Proofs.Document.RoundTrip

/-!
# Printing the document that was read

The document that a run prints says all that the document it read did, whatever the layout of the
latter was: a run on the printed document succeeds, prints the same document and the same source
text, and releases as many nodes (`run_on_printed_document`). The printed document is never nested
too deep to be read again, because no layout is nested less deep than the printed one.
-/

namespace SyntaxForest

open Document

namespace Forest

/-- A forest that was decoded can be written within the bound on open brackets. -/
theorem depth_document_le {source : String} {forest : Forest} (h : decode source = .ok forest) :
    forest.document.depth ≤ maxDepth := by
  rw [decode, Document.decode, decodeChars] at h
  split at h
  · cases h
  next value rest hrun =>
  split at h
  · cases h
    have hread : (decoder maxDepth (.list .node)).read source.toList = some (forest, rest) := by
      rw [Reader.read, hrun]
      rfl
    exact (decoder_gives maxDepth (.list .node) _ _ _ hread).1
  · cases h

/-- A forest that was read from some document is read from its own, also with a line break at the
end. -/
theorem parse_dump_newline {source : String} {forest : Forest} (h : parse source = .ok forest)
    (hrecovers : ∀ x ∈ forest.fractions, Recovers x) : parse (dump forest ++ "\n") = .ok forest := by
  obtain ⟨hdecode, hcheck⟩ := parse_eq_ok.mp h
  have hblank : Blank "\n".toList := by simp [Blank, isBlank]
  have hverdict := forest.decode_dump_append "\n" hblank
  exact parse_of_check_ok (hverdict.eq_some ⟨depth_document_le hdecode, hrecovers⟩) hcheck

end Forest

namespace CommandLine

/-- The arguments ask for a run with the given settings, and the input is there and has the given
contents. -/
structure Processes (env : Environment) (arguments : List String) (settings : Settings)
    (source : String) : Prop where
  command : env.parse arguments = some (.run settings)
  input : env.read settings.input = .ok source

theorem Processes.run_eq {env : Environment} {arguments : List String} {settings : Settings}
    {source : String} (h : Processes env arguments settings source) {forest : Forest}
    (hparse : Forest.parse source = .ok forest) :
    env.run arguments = settings.forestReport forest := by
  rw [Environment.run, h.command]
  simp only [Command.report, Settings.report, h.input, hparse]

/-- The line about the nodes that were released with a forest. -/
def releasedLine (count : Nat) (input : String) : String :=
  "released " ++ Numeric.natText count ++ " nodes from " ++ input ++ "\n"

/-- A run that asks for the document of what it reads prints one that can be read again. A run on
that document succeeds; it prints the document again, or the source text and the number of released
nodes that a run on the first document prints. It does not matter how arguments are taken and where
the files are, nor whether that is the same for all runs; `run` is the case of one directory. -/
theorem run_on_printed_document {env : Environment} {arguments : List String}
    {settings : Settings} {source : String} {forest : Forest}
    (h : Processes env arguments settings source) (hformat : settings.format = .json)
    (hparse : Forest.parse source = .ok forest)
    (hrecovers : ∀ x ∈ forest.fractions, Recovers x) :
    env.run arguments = ⟨0, forest.document.pretty ++ "\n", ""⟩ ∧
    forest.document.depth ≤ maxDepth ∧
    ∀ {env' : Environment} {arguments' : List String} {settings' : Settings},
      Processes env' arguments' settings' (env.run arguments).stdout →
      (env'.run arguments').code = 0 ∧
      (settings'.format = .json →
        (env'.run arguments').stdout = (env.run arguments).stdout) ∧
      (settings'.format = .text →
        ∀ {env'' : Environment} {arguments'' : List String} {settings'' : Settings},
        Processes env'' arguments'' settings'' source →
        settings''.format = .text → settings''.quiet = settings'.quiet →
        (env'.run arguments').stdout = (env''.run arguments'').stdout ∧
        ∃ count,
          (env'.run arguments').stderr =
            (if settings'.quiet then "" else releasedLine count settings'.input) ∧
          (env''.run arguments'').stderr =
            (if settings'.quiet then "" else releasedLine count settings''.input)) := by
  have hprinted : env.run arguments = ⟨0, forest.dump ++ "\n", ""⟩ := by
    rw [h.run_eq hparse, Settings.forestReport, hformat]
  refine ⟨hprinted, Forest.depth_document_le (Forest.parse_eq_ok.mp hparse).1, ?_⟩
  intro env' arguments' settings' h'
  rw [hprinted] at h' ⊢
  have hrun := h'.run_eq (Forest.parse_dump_newline hparse hrecovers)
  refine ⟨?_, ?_, ?_⟩
  · rw [hrun, Settings.forestReport]
    split <;> rfl
  · intro hformat'
    rw [hrun, Settings.forestReport, hformat']
  · intro hformat' env'' arguments'' settings'' h'' hformat'' hquiet
    rw [hrun, h''.run_eq hparse, Settings.forestReport, Settings.forestReport, hformat', hformat'',
      hquiet]
    exact ⟨rfl, forest.releaseCount, rfl, rfl⟩

/-- A file in the working directory is read by its name. -/
theorem readFrom_ofFiles_a (source : String) :
    readFrom (.ofFiles [("a", source.toUTF8)]) "a" = .ok source := by
  have hrelative : ("a".isEmpty || "a".startsWith "/") = false := by decide +kernel
  have hpath : checkPath "a" = .ok () := by
    rw [checkPath, if_neg (by decide +kernel), if_neg (by decide +kernel)]
  have hsteps : pathSteps "a" = ["a"] := by
    -- The name is searched for a slash in two steps, to its end.
    rw [pathSteps, String.splitOn, if_neg (by decide +kernel), String.splitOnAux,
      if_neg (by decide +kernel), if_neg (by decide +kernel), String.splitOnAux,
      if_pos (by decide +kernel)]
    decide +kernel
  have hfile : ("a".endsWith "/" || "a".endsWith "/.") = false := by decide +kernel
  have htext : textOfBytes source.toUTF8 = .ok source := by
    have hvalid : source.toByteArray.IsValidUTF8 := source.isValidUTF8
    simp [textOfBytes, String.fromUTF8?, String.fromUTF8, hvalid]
  simp only [readFrom, hrelative, Directory.read, hpath, hsteps, hfile, Directory.ofFiles,
    List.map_cons, List.map_nil]
  exact htext

/-- A sum as an array, in which a constant has its fields in reverse behind an unknown member. It is
read from a working directory, and from a place that is given by an absolute path. -/
theorem run_on_printed_document_sum :
    let source := "[\x7b\"Expression\":\x7b\"BinOp\":[\"add\",\x7b\"Identifier\":\"x\"\x7d," ++
      "\x7b\"Constant\":\x7b\"unit\":[1],\"value\":2.5,\"kind\":\x7b\"double\":null\x7d\x7d\x7d]\x7d\x7d]"
    let directory := Directory.ofFiles [("a", source.toUTF8)]
    let printed := (run directory ["-f", "json", "a"]).stdout
    let directory' := Directory.ofFiles [("a", printed.toUTF8)]
    let elsewhere : Environment := ⟨Command.ofArguments?, fun path =>
      if path = "/tmp/a" then .ok printed else .error .notFound⟩
    (run directory' ["a"]).stdout = "parsed ast:\n(x + 2.5D)\n" ∧
    (run directory' ["a"]).stderr = "released 3 nodes from a\n" ∧
    (run directory' ["a", "--format=json"]).stdout = printed ∧
    (elsewhere.run ["-f", "json", "/tmp/a"]).code = 0 ∧
    (elsewhere.run ["-f", "json", "/tmp/a"]).stdout = printed := by
  intro source directory printed directory' elsewhere
  have hread : (Forest.parse source).toOption.map (fun forest =>
      (listing false forest, forest.releaseCount, forest.fractions)) =
      some ("parsed ast:\n(x + 2.5D)\n", 3, [.ofBits .double 0x4004000000000000]) := by
    decide +kernel
  obtain ⟨forest, hforest, hvalues⟩ := Option.map_eq_some_iff.mp hread
  simp only [Prod.mk.injEq] at hvalues
  obtain ⟨hlisting, hcount, hfractions⟩ := hvalues
  have hparse : Forest.parse source = .ok forest := by
    cases hp : Forest.parse source with
    | error e => simp [hp, Except.toOption] at hforest
    | ok forest' => simpa [hp, Except.toOption] using hforest
  have hrecovers : ∀ x ∈ forest.fractions, Recovers x := by
    rw [hfractions, List.forall_mem_singleton]
    decide +kernel
  have hprocesses (text : String) (format : OutputFormat) (arguments : List String)
      (h : Command.ofArguments? arguments = some (.run ⟨"a", format, false⟩)) :
      Processes (.ofDirectory (.ofFiles [("a", text.toUTF8)])) arguments ⟨"a", format, false⟩
        text :=
    ⟨h, readFrom_ofFiles_a text⟩
  obtain ⟨-, -, hagain⟩ := run_on_printed_document
    (hprocesses source .json ["-f", "json", "a"] rfl) rfl hparse hrecovers
  obtain ⟨-, -, htext⟩ := hagain (hprocesses printed .text ["a"] rfl)
  obtain ⟨-, hdump, -⟩ := hagain (hprocesses printed .json ["a", "--format=json"] rfl)
  have helsewhere : Processes elsewhere ["-f", "json", "/tmp/a"] ⟨"/tmp/a", .json, false⟩ printed :=
    ⟨rfl, by simp [elsewhere]⟩
  obtain ⟨hcode, hfar, -⟩ := hagain helsewhere
  have hsource := hprocesses source .text ["a"] rfl
  obtain ⟨hstdout, count, hstderr, hstderr'⟩ := htext rfl hsource rfl rfl
  have hrun := hsource.run_eq hparse
  refine ⟨hstdout.trans ?_, hstderr.trans ?_, hdump rfl, hcode, hfar rfl⟩
  · rw [hrun]
    exact hlisting
  · rw [← hstderr', hrun, Settings.forestReport, hcount]
    rfl

end CommandLine

end SyntaxForest
