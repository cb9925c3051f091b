import RegisterMachine.Proofs.Command.Files
import RegisterMachine.Proofs.Command.Mirror
import RegisterMachine.Proofs.Image.RoundTrip

/-!
# RegisterMachine.Proofs.Command.Refinement

The commands do what the library does. Assembling a file writes the image of its
text to another file and changes nothing else; running that file shows what the
machine of the image writes on a console in memory (`Command.shell_refines`). If
there is no image, no file is touched; if the device refuses a part of the image,
the command fails and the file has the part before it.

The three parts meet here: the files (`Files.Admits`), the format of images, and
the terminal (`Terminal.Mirrors`). Nothing is logged, and the standard output takes
all that it is given.
-/

namespace RegisterMachine

/-- A command, carried out without a log and with a standard output that works. -/
def Command.shell (limit : Nat) (files : Files) (stdin : Reader) (report : HostError → List Byte)
    (command : Command) : Execution :=
  command.perform limit files (.start stdin (fun _ => false) false report)

/-- The command has done its work, and this is what it has shown. -/
structure Execution.Shows (e : Execution) (stdout stderr : List Byte) : Prop where
  status : e.status = 0
  stdout : e.terminal.shown = stdout
  stderr : e.terminal.stderr.toList = stderr

/-! ### Files -/

/-- An image is loaded from where it was put. -/
theorem Files.load_put {files : Files} {path : String} {names : List Text} {image : Image}
    (h : files.Admits path names) (hfits : image.Fits) :
    (files.put names (.file image.encode)).load path = .ok image := by
  have hreader : (files.put names (.file image.encode)).reader path =
      .ok (.ofBytes image.encode) := by
    unfold Files.reader
    rw [Files.openNode_put h]
    rfl
  have hdecode : Image.decode (.ofBytes image.encode) = .ok image := by
    rw [Image.decode_eq_ofBytes, Reader.delivered_ofBytes, ← List.append_nil image.encode]
    exact Image.ofBytes_encode_append hfits []
  rw [Files.load, hreader, Image.ofContent, hdecode]

theorem Files.assemble_of_source {files : Files} {path source : String} {image : Image}
    (hread : files.readText path = .ok source) (h : RegisterMachine.assemble source = .ok image) :
    files.assemble path = .ok image := by
  rw [Files.assemble, hread, assembleContent, h]

/-- An image is saved in the place that a path leads to. -/
theorem Files.save_of_takes {files : Files} {path : String} {names : List Text} {image : Image}
    (h : files.Admits path names) (ht : files.Takes names image.encode) :
    files.save path image = (none, files.put names (.file image.encode)) := by
  rw [Files.save, Files.write_of_admits h, Files.fill_of_takes ht]
  rfl

/-- An image of which the device refuses a part is cut off. -/
theorem Files.save_of_refusal {files : Files} {path : String} {names : List Text} {image : Image}
    {taken : Nat} {e : HostError} (h : files.Admits path names)
    (hr : files.refusal names image.encode = some (taken, e)) :
    files.save path image =
      (some (.write e), files.put names (.file (image.encode.take taken))) := by
  rw [Files.save, Files.write_of_admits h, Files.fill_of_refusal hr]
  rfl

theorem Files.exists_error {files : Files} {path : String}
    (h : (∃ e, files.readText path = .error e) ∨
      ∃ source e, files.readText path = .ok source ∧ RegisterMachine.assemble source = .error e) :
    ∃ e, files.assemble path = .error e := by
  rw [Files.assemble]
  obtain ⟨e, hread⟩ | ⟨source, e, hread, hsource⟩ := h
  · rw [hread]
    exact ⟨_, rfl⟩
  · rw [hread, assembleContent, hsource]
    exact ⟨_, rfl⟩

namespace Command

variable {limit : Nat} {files : Files} {stdin : Reader} {report : HostError → List Byte}
  {input output : String} {image : Image} {names : List Text}

/-! ### Commands -/

theorem finish_of_mirrors {t : Terminal} {b : Buffer} (h : t.Mirrors b) (files : Files) :
    t.finish files = ⟨0, files, t⟩ := by
  rw [Terminal.finish, h.going]

theorem close_of_mirrors {t : Terminal} {b : Buffer} (h : t.Mirrors b) : t.close = t := by
  have hflush : t.stdout.flush = (true, t.stdout) := by
    rw [Output.flush, if_pos h.flushed]
  rw [Terminal.close, hflush]

/-- An image is assembled into a file. -/
theorem execute_assemble (limit : Nat) {t : Terminal} {b : Buffer} (ht : t.Mirrors b)
    (himage : files.assemble input = .ok image) (hout : files.Admits output names)
    (htakes : files.Takes names image.encode) :
    ∃ last : Terminal, last.Mirrors b ∧
      (assemble input output).execute limit files t =
        ⟨0, files.put names (.file image.encode), last⟩ := by
  obtain ⟨hprint, -⟩ := ht.print image.summary
  refine ⟨t.print image.summary, hprint, ?_⟩
  rw [execute, himage, Terminal.logAll_of_silent ht.silent]
  dsimp only
  rw [Files.save_of_takes hout htakes]
  exact finish_of_mirrors hprint _

/-- An image that the device does not take is an error, and a part of it may have been written. -/
theorem execute_assemble_refused (limit : Nat) (t : Terminal) {taken : Nat} {e : HostError}
    (himage : files.assemble input = .ok image) (hout : files.Admits output names)
    (hrefusal : files.refusal names image.encode = some (taken, e)) :
    ((assemble input output).execute limit files t).status = 1 ∧
      ((assemble input output).execute limit files t).files =
        files.put names (.file (image.encode.take taken)) := by
  rw [execute, himage]
  dsimp only
  rw [Files.save_of_refusal hout hrefusal]
  exact ⟨rfl, rfl⟩

/-- Where there is no image, no file is changed. -/
theorem execute_assemble_error (limit : Nat) (t : Terminal) (output : String) {e : SourceError}
    (h : files.assemble input = .error e) :
    ((assemble input output).execute limit files t).status = 1 ∧
      ((assemble input output).execute limit files t).files = files := by
  rw [execute, h]
  exact ⟨rfl, rfl⟩

/-- A program that halts is run to its end. -/
theorem execute_run {t : Terminal} {b : Buffer} (ht : t.Mirrors b)
    (hload : files.load input = .ok image) {n : Nat} (hn : n ≤ limit)
    (hhalted : ((Session.start (.ofImage image) b).run n).machine.status = .halted)
    (traced : Bool) :
    ∃ last : Terminal, last.Mirrors ((Session.start (.ofImage image) b).run n).console ∧
      last.shown = t.shown ++ (List.range n).flatMap
        (fun k => ((Session.start (.ofImage image) b).run k).printed traced) ∧
      (run input traced).execute limit files t = ⟨0, files, last⟩ := by
  obtain ⟨hmirrors, hshown⟩ := Terminal.drive_of_halted ht rfl hn hhalted traced
  refine ⟨_, hmirrors, hshown, ?_⟩
  rw [execute, hload]
  dsimp only
  generalize t.drive limit ((Machine.ofImage image).withTracing traced) = driven at hmirrors
  obtain ⟨m, last⟩ := driven
  dsimp only at hmirrors ⊢
  rw [hmirrors.going, Terminal.logAll_of_silent hmirrors.silent]
  exact finish_of_mirrors hmirrors files

/-- A command that has left the terminal as a console in memory is left. -/
theorem shows_of_execute {command : Command} {last : Terminal} {b : Buffer} {shown : List Byte}
    (hlast : last.Mirrors b) (hshown : last.shown = shown)
    (h : command.execute limit files (.start stdin (fun _ => false) false report) =
      ⟨0, files, last⟩) :
    (shell limit files stdin report command).Shows shown b.stderr.toList := by
  rw [shell, perform, h, close_of_mirrors hlast]
  exact ⟨rfl, hshown, congrArg Array.toList hlast.stderr⟩

/-- Assembling into a file, as a command. -/
theorem shell_assemble (himage : files.assemble input = .ok image)
    (hout : files.Admits output names) (htakes : files.Takes names image.encode) :
    (shell limit files stdin report (.assemble input output)).status = 0 ∧
      (shell limit files stdin report (.assemble input output)).files =
        files.put names (.file image.encode) := by
  obtain ⟨last, -, hexecute⟩ :=
    execute_assemble limit (Terminal.mirrors_start stdin report) himage hout htakes
  rw [shell, perform, hexecute]
  exact ⟨rfl, rfl⟩

/-- The commands do what the library does, whatever is in the files and however the input arrives.
Let the text in the file `input` have an image, and let there be a place for the file `output`. If
the device takes the image, assembling succeeds, and changes only that file, the content of which
is then that of the image. Running it shows, if the program halts, what it writes on a console in
memory with the same input; with the trace, what each step writes on the standard output is
followed by the line of the step. If the device refuses a part of the image, assembling fails, and
the file has what comes before. If the text cannot be read or has no image, assembling fails and
changes no file. -/
theorem shell_refines (limit : Nat) (files : Files) (stdin : Reader)
    (report : HostError → List Byte) (input output : String) :
    let assembled := shell limit files stdin report (.assemble input output)
    (∀ source image names, files.readText input = .ok source →
      RegisterMachine.assemble source = .ok image → files.Admits output names →
        (files.Takes names image.encode →
          assembled.status = 0 ∧ files.Changed names image.encode assembled.files ∧
          ∀ (stdin : Reader) (n : Nat), n ≤ limit →
            let s := Session.start (.ofImage image) (Buffer.ofInput stdin.delivered)
            (s.run n).machine.status = .halted →
              (shell limit assembled.files stdin report (.run output false)).Shows
                (s.run n).console.stdout.toList (s.run n).console.stderr.toList ∧
              (shell limit assembled.files stdin report (.run output true)).Shows
                ((List.range n).flatMap fun k => (s.run k).printed true)
                (s.run n).console.stderr.toList) ∧
        ∀ taken e, files.refusal names image.encode = some (taken, e) →
          assembled.status = 1 ∧
          files.Changed names (image.encode.take taken) assembled.files) ∧
    ((∃ e, files.readText input = .error e) ∨
        (∃ source e, files.readText input = .ok source ∧
          RegisterMachine.assemble source = .error e) →
      assembled.status = 1 ∧ assembled.files = files) := by
  intro assembled
  constructor
  · intro source image names hread hsource hout
    have himage := Files.assemble_of_source hread hsource
    constructor
    · intro htakes
      obtain ⟨hstatus, hfiles⟩ : assembled.status = 0 ∧ assembled.files = _ :=
        shell_assemble himage hout htakes
      rw [hfiles]
      refine ⟨hstatus, Files.changed_put hout _, ?_⟩
      intro stdin n hn s hhalted
      have hload := Files.load_put hout (Image.fits_of_assemble hsource)
      have hrun (traced : Bool) :=
        execute_run (Terminal.mirrors_start stdin report) hload hn hhalted traced
      constructor
      · obtain ⟨last, hlast, hshown, hexecute⟩ := hrun false
        refine shows_of_execute hlast (hshown.trans ?_) hexecute
        exact (s.stdout_run n).symm
      · obtain ⟨last, hlast, hshown, hexecute⟩ := hrun true
        exact shows_of_execute hlast hshown hexecute
    · intro taken e hrefusal
      obtain ⟨hstatus, hfiles⟩ : assembled.status = 1 ∧ assembled.files = _ :=
        execute_assemble_refused limit _ himage hout hrefusal
      rw [hfiles]
      exact ⟨hstatus, Files.changed_put hout _⟩
  · intro h
    obtain ⟨e, he⟩ := Files.exists_error h
    exact execute_assemble_error limit (.start stdin (fun _ => false) false report) output he

/-- A program that reads two bytes over its first two, writes them, and runs off its end. -/
def echoSource : String := "_main:\nmov r1, 2\nmov r4, r1\nsyscall\nmov r1, 1\nsyscall"

/-- A directory with the program in a file, on a device that has room for some bytes in a file. -/
def echoFiles (room : Nat) : Files where
  nodes := [(["echo.asm".toList], .file echoSource.toUTF8.data.toList)]
  refusal _ bytes := if bytes.length ≤ room then none else some (room, .noSpace)

/-- The two bytes arrive one by one, and then the input fails. -/
def echoInput : Reader := ⟨[.chunk [0x68], .interrupted, .chunk [0x69]], some .notText⟩

/-- What the program shows with the trace. The two bytes stand before the line of their step. -/
def echoShown : List String :=
  ["IP:00000000 OP:01 | r1:00000002 r2:00000000 r3:00000000 r4:00000000 r5:00000000 ",
    "r6:00000000 r7:00000000 r8:00000000 IP:00000007 rF:00000000 rS:0 []\n",
    "IP:00000007 OP:01 | r1:00000002 r2:00000000 r3:00000000 r4:00000002 r5:00000000 ",
    "r6:00000000 r7:00000000 r8:00000000 IP:0000000B rF:00000000 rS:0 []\n",
    "IP:0000000B OP:0B | r1:00000002 r2:00000000 r3:00000000 r4:00000002 r5:00000000 ",
    "r6:00000000 r7:00000000 r8:00000000 IP:0000000C rF:00000000 rS:0 []\n",
    "IP:0000000C OP:01 | r1:00000001 r2:00000000 r3:00000000 r4:00000002 r5:00000000 ",
    "r6:00000000 r7:00000000 r8:00000000 IP:00000013 rF:00000000 rS:0 []\n",
    "hi",
    "IP:00000013 OP:0B | r1:00000002 r2:00000000 r3:00000000 r4:00000002 r5:00000000 ",
    "r6:00000000 r7:00000000 r8:00000000 IP:00000014 rF:00000000 rS:0 []\n"]

/-- The program is assembled, and shown with the trace and without it. On a device that has too
little room, only the beginning of the image is written; without a program, nothing is. -/
theorem shell_refines_echo :
    let report : HostError → List Byte := fun _ => []
    let assembled (room : Nat) (input : String) :=
      shell 20 (echoFiles room) echoInput report (.assemble input "echo.bvm")
    let shown (traced : Bool) :=
      shell 20 (assembled 36 "echo.asm").files echoInput report (.run "echo.bvm" traced)
    (assembled 36 "echo.asm").status = 0 ∧ (shown false).Shows [0x68, 0x69] [] ∧
      (shown true).Shows (echoShown.flatMap fun s => s.toUTF8.data.toList) [] ∧
      (assembled 5 "echo.asm").status = 1 ∧
      (assembled 5 "echo.asm").files.node? ["echo.bvm".toList] =
        some (.file [0x42, 0x56, 0x4D, 0x00, 0x00]) ∧
      (assembled 36 "none.asm").status = 1 := by
  intro report assembled shown
  have hread (room : Nat) : (echoFiles room).readText "echo.asm" = .ok echoSource := rfl
  have hmissing : (echoFiles 36).readText "none.asm" = .error .notFound := rfl
  have hsource : RegisterMachine.assemble echoSource = .ok
      ⟨0, [1, 18, 0, 2, 0, 0, 0, 1, 17, 3, 0, 11, 1, 18, 0, 1, 0, 0, 0, 11], []⟩ := rfl
  have hout (room : Nat) : (echoFiles room).Admits "echo.bvm" ["echo.bvm".toList] :=
    ⟨⟨["echo.bvm".toList], false, false⟩, .vacant ["echo.bvm".toList], rfl, rfl, rfl, .vacant⟩
  have hassembled (room : Nat) :=
    (shell_refines 20 (echoFiles room) echoInput report "echo.asm" "echo.bvm").1
      echoSource _ _ (hread room) hsource (hout room)
  obtain ⟨htaken, -⟩ := hassembled 36
  obtain ⟨hstatus, -, hrun⟩ := htaken rfl
  obtain ⟨hplain, htraced⟩ := hrun echoInput 6 (by decide) (by decide +kernel)
  obtain ⟨hdone, hstdout, hstderr⟩ := hplain
  obtain ⟨hdone', hstdout', hstderr'⟩ := htraced
  obtain ⟨-, hrefused⟩ := hassembled 5
  obtain ⟨hfailed, hcut⟩ := hrefused 5 .noSpace rfl
  obtain ⟨-, hnone⟩ := shell_refines 20 (echoFiles 36) echoInput report "none.asm" "echo.bvm"
  obtain ⟨hmissed, -⟩ := hnone (Or.inl ⟨_, hmissing⟩)
  refine ⟨hstatus, ⟨hdone, ?_, ?_⟩, ⟨hdone', ?_, ?_⟩, hfailed, hcut.content, hmissed⟩
  · rw [hstdout]
    decide +kernel
  · rw [hstderr]
    decide +kernel
  · rw [hstdout']
    decide +kernel
  · rw [hstderr']
    decide +kernel

end Command

end RegisterMachine
