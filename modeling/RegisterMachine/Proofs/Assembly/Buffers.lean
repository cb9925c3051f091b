import RegisterMachine.Proofs.Assembly.ControlFlow
import RegisterMachine.Proofs.Assembly.Declarations
import RegisterMachine.Proofs.Machine.Safety

/-!
# RegisterMachine.Proofs.Assembly.Buffers

The buffers of a program **tile** its data (`Layout.Tiles`): they stand one
after the other in the order of their declarations, the first right behind the
code, and they leave nothing out. Where the data sections stand among the main
sections does not matter, since the size of the code is that of all of it.

So a buffer that has room for a word can be used as a variable
(`buffers_of_assemble`): a store to its name puts the word there and reaches no
other byte, and a load from its name gives the word back for as long as nothing
else has been written there.
-/

namespace RegisterMachine

/-! ### Tiling -/

namespace Draft

/-- Every byte of some declarations is that of one of them. -/
theorem exists_split_iff {ds : List (Nat × Declaration)} {start k : Nat} :
    start ≤ k ∧ k < start + dataSizeOf ds ↔
      ∃ before entry after, ds = before ++ entry :: after ∧
        start + dataSizeOf before ≤ k ∧ k < start + dataSizeOf before + entry.2.size.toNat := by
  constructor
  · intro h
    induction ds generalizing start with
    | nil =>
      rw [dataSizeOf_nil] at h
      omega
    | cons entry ds ih =>
      rw [dataSizeOf_cons] at h
      by_cases hk : k < start + entry.2.size.toNat
      · exact ⟨[], entry, ds, rfl, h.1, hk⟩
      · have hrest : start + entry.2.size.toNat ≤ k ∧
            k < start + entry.2.size.toNat + dataSizeOf ds := by omega
        obtain ⟨before, later, after, rfl, hlow, hhigh⟩ := ih hrest
        refine ⟨entry :: before, later, after, rfl, ?_⟩
        rw [dataSizeOf_cons]
        omega
  · rintro ⟨before, entry, after, rfl, hlow, hhigh⟩
    rw [dataSizeOf_append, dataSizeOf_cons]
    omega

end Draft

namespace Layout

/-- The address `k` is one of the buffer that is declared by `d`. -/
def Holds (layout : Layout) (d : Declaration) (k : Nat) : Prop :=
  ∃ start, layout.buffers.lookup d.name = some start ∧ start ≤ k ∧ k < start + d.size.toNat

/-- The buffers of the declarations `ds` are the data of the image. -/
structure Tiles (layout : Layout) (image : Image) (ds : List (Nat × Declaration)) : Prop where
  zeros : image.data = List.replicate (Draft.dataSizeOf ds) 0
  /-- A buffer begins where the code and the buffers before it end, and this is a word. -/
  starts : ∀ before entry after, ds = before ++ entry :: after →
    layout.buffers.lookup entry.2.name =
        some (image.code.length + Draft.dataSizeOf before) ∧
      image.code.length + Draft.dataSizeOf before < Draft.addressLimit
  ordered : ds.Pairwise fun first second =>
    ∀ j k, layout.Holds first.2 j → layout.Holds second.2 k → j < k
  covered : ∀ k, image.code.length ≤ k ∧ k < image.memory.length ↔
    ∃ entry ∈ ds, layout.Holds entry.2 k

variable {layout : Layout} {lines : List Line} {ds before after : List (Nat × Declaration)}
  {entry : Nat × Declaration}

/-- The buffers are what has been made of the declarations of the lines. -/
theorem exists_placed (h : ofLines lines = .ok layout) :
    ∃ placed, place layout.codeSize 0 (Line.declarations lines) = .ok placed ∧
      layout.buffers = placed.1 ∧ layout.dataSize = placed.2 ∧
      ((Line.declarations lines).map fun entry => entry.2.name).Nodup := by
  obtain ⟨draft, hdraft, hplace⟩ := exists_of_bind_eq_ok h
  obtain ⟨placed, hplaced, rfl⟩ := exists_of_map_eq_ok hplace
  have hlists := Draft.lists_of_ofLines hdraft
  rw [hlists.declarations] at hplaced
  exact ⟨placed, hplaced, rfl, rfl, hlists.declarations ▸ hlists.nodup⟩

theorem lookup_buffer (h : ofLines lines = .ok layout)
    (hds : Line.declarations lines = before ++ entry :: after) :
    layout.buffers.lookup entry.2.name = some (layout.codeSize + Draft.dataSizeOf before) ∧
      layout.codeSize + Draft.dataSizeOf before < Draft.addressLimit := by
  obtain ⟨placed, hplaced, hbuffers, -, hnodup⟩ := exists_placed h
  rw [hds] at hplaced hnodup
  have hlookup := lookup_of_place hplaced hnodup
  obtain ⟨hroom, -⟩ := exists_place_iff.1 ⟨placed, hplaced⟩ before entry after rfl
  rw [Nat.zero_add] at hlookup hroom
  rw [hbuffers]
  exact ⟨hlookup, hroom⟩

theorem holds_iff (h : ofLines lines = .ok layout)
    (hds : Line.declarations lines = before ++ entry :: after) {k : Nat} :
    layout.Holds entry.2 k ↔ layout.codeSize + Draft.dataSizeOf before ≤ k ∧
      k < layout.codeSize + Draft.dataSizeOf before + entry.2.size.toNat := by
  obtain ⟨hlookup, -⟩ := lookup_buffer h hds
  rw [Holds, hlookup]
  simp

/-- A buffer ends before the next one begins. -/
theorem ordered_of_ofLines (h : ofLines lines = .ok layout) :
    (Line.declarations lines).Pairwise fun first second =>
      ∀ j k, layout.Holds first.2 j → layout.Holds second.2 k → j < k := by
  refine List.pairwise_iff_forall_sublist.2 ?_
  intro first second hsub j k hj hk
  -- the second declaration stands somewhere behind the first one
  obtain ⟨front, back, hds, hfirst, hsecond⟩ := List.cons_sublist_iff.1 hsub
  obtain ⟨before, between, rfl⟩ := List.append_of_mem hfirst
  obtain ⟨between', after, rfl⟩ := List.append_of_mem (List.singleton_sublist.1 hsecond)
  have hsplit : Line.declarations lines =
      before ++ first :: (between ++ (between' ++ second :: after)) := by rw [hds]; simp
  have hsplit' : Line.declarations lines =
      (before ++ first :: (between ++ between')) ++ second :: after := by rw [hds]; simp
  have hj' := (holds_iff h hsplit).1 hj
  have hk' := (holds_iff h hsplit').1 hk
  simp only [Draft.dataSizeOf_append, Draft.dataSizeOf_cons] at hk'
  omega

/-- The layout of a program that is assembled tiles its data. -/
theorem tiles_of_assembled {image : Image} (h : image.Assembled layout lines)
    (hdata : image.data = List.replicate layout.dataSize 0) :
    layout.Tiles image (Line.declarations lines) := by
  obtain ⟨placed, hplaced, -, hsize, -⟩ := exists_placed h.laidOut
  have hdataSize : layout.dataSize = Draft.dataSizeOf (Line.declarations lines) := by
    rw [hsize, dataSize_of_place hplaced, Nat.zero_add]
  have hcodeSize : layout.codeSize = image.code.length := by
    rw [codeSize_of_ofLines h.laidOut, h.length_code]
  rw [hdataSize] at hdata
  refine ⟨hdata, ?_, ordered_of_ofLines h.laidOut, ?_⟩
  · intro before entry after hds
    rw [← hcodeSize]
    exact lookup_buffer h.laidOut hds
  · intro k
    have hlen : image.memory.length =
        layout.codeSize + Draft.dataSizeOf (Line.declarations lines) := by
      rw [Image.length_memory, hdata, List.length_replicate, hcodeSize]
    rw [hlen, ← hcodeSize, Draft.exists_split_iff]
    constructor
    · rintro ⟨before, entry, after, hds, hk⟩
      exact ⟨entry, by rw [hds]; simp, (holds_iff h.laidOut hds).2 hk⟩
    · rintro ⟨entry, hentry, hk⟩
      obtain ⟨before, after, hds⟩ := List.append_of_mem hentry
      exact ⟨before, entry, after, hds, (holds_iff h.laidOut hds).1 hk⟩

/-- The name of a buffer stands for its first byte, unless it is a number or a label. -/
theorem resolve_of_lookup {t : Text} {start : Nat} (hnumber : Text.number? t = none)
    (hlabel : t ∉ layout.labels.map Prod.fst) (h : layout.buffers.lookup t = some start) :
    layout.resolve t = some (UInt32.ofNat start) := by
  rw [resolve, hnumber, lookup_eq_none_iff_not_mem.2 hlabel, h]
  rfl

end Layout

/-! ### One step at a line -/

/-- A machine that has come to a line with an instruction carries it out. -/
theorem Image.Assembled.exists_carries {image : Image} {layout : Layout} {before after : List Line}
    {l : Line} {i : Instruction Text} {m : Machine} {κ : Type} [Console κ] (c : κ)
    (h : image.Assembled layout (before ++ l :: after)) (hl : States before l (.instruction i))
    (hm : image.At m (Draft.codeSizeOf (Line.instructions none before)) i.size) :
    ∃ s, m.step? c = some s ∧ layout.Carries m c i s := by
  obtain ⟨e, he, hcode⟩ := h.emitted
  obtain ⟨pre, i', post, hi, hsplit, hpre⟩ := he.code_split hl
  rw [hsplit] at hcode
  rw [← hpre, ← Instruction.size_resolve hi, ← Instruction.length_encode] at hm
  exact Layout.exists_carries c hi hm.running (hm.codeAt hcode)

/-- An instruction that comes to a machine raises no fault, and the machine is all it comes to. -/
theorem Layout.Carries.eq_done {layout : Layout} {m next : Machine} {κ : Type} [Console κ] {c : κ}
    {i : Instruction Text} {s : Step κ} (h : layout.Carries m c i s)
    (hperforms : layout.Performs m (m.skip i.size) i (.ok (.done next))) :
    s.machine = next ∧ ∀ f ip, Event.fault f ip ∉ s.events := by
  obtain ⟨result, -, hunique, rfl⟩ := h.effect
  cases hunique _ hperforms
  refine ⟨by rw [Turn.machine_serve]; rfl, ?_⟩
  intro f ip hfault
  rcases Machine.fault_mem_turnOf.1 (Turn.fault_mem_serve.1 hfault) with hf | ⟨hf, -⟩
  · cases hf
  · cases hf

/-! ### Buffers as variables -/

/-- The step `s` of the machine `m` changes the buffer of `d` at most, and raises no fault. -/
structure Layout.Fills (layout : Layout) (d : Declaration) (m : Machine) {κ : Type}
    (s : Step κ) : Prop where
  running : s.machine.status = .running
  sound : ∀ f ip, Event.fault f ip ∉ s.events
  frame : ∀ k, ¬layout.Holds d k → s.machine.memory.bytes[k]? = m.memory.bytes[k]?

/-- Wherever the program moves the word in the buffer of `d` into a general register, the machine
comes by `v`, with any console. -/
def Image.Yields (image : Image) (lines : List Line) (d : Declaration) (v : Word) (m : Machine) :
    Prop :=
  ∀ (before : List Line) (l : Line) (after : List Line) (r : Register) (κ : Type) [Console κ]
    (c : κ), lines = before ++ l :: after →
    States before l (.instruction (.move r (.memory d.name))) →
    r ∈ TraceRecord.generalRegisters →
    image.At m (Draft.codeSizeOf (Line.instructions none before))
      (Instruction.move r (.memory d.name)).size →
    ∃ s, m.step? c = some s ∧ (∀ f ip, Event.fault f ip ∉ s.events) ∧ s.machine.get r = v

/-- Wherever the program moves a register or a number into the buffer of `d`, its word is put
there, and is found there after any use of the machine that has left the buffer as it was. -/
def Image.Remembers (image : Image) (layout : Layout) (lines : List Line) (d : Declaration) :
    Prop :=
  ∀ (before : List Line) (l : Line) (after : List Line) (src : Direct Text) (m : Machine)
    (κ : Type) [Console κ] (c : κ), lines = before ++ l :: after →
    States before l (.instruction (.store d.name src)) →
    image.At m (Draft.codeSizeOf (Line.instructions none before))
      (Instruction.store d.name src).size →
    m.memory.size = image.memory.length →
    ∃ s v, m.step? c = some s ∧ layout.Fills d m s ∧
      layout.Reads (m.skip (Instruction.store d.name src).size) src.toOperand (some v) ∧
      ∀ uses : List Use,
        (∀ k, layout.Holds d k → (s.machine.after uses).memory.bytes[k]? =
          s.machine.memory.bytes[k]?) →
        image.Yields lines d v (s.machine.after uses)

namespace Layout

variable {image : Image} {layout : Layout} {ds : List (Nat × Declaration)} {d : Declaration}
  {a v : Word} {m : Machine}

/-- The name of `d` stands for `a`, where its buffer begins, with all of it in the memory. -/
structure Locates (layout : Layout) (image : Image) (d : Declaration) (a : Word) : Prop where
  resolve : layout.resolve d.name = some a
  inside : a.toNat + d.size.toNat ≤ image.memory.length
  holds : ∀ k, layout.Holds d k ↔ a.toNat ≤ k ∧ k < a.toNat + d.size.toNat

theorem Tiles.exists_locates {line : Nat} (h : layout.Tiles image ds) (hd : (line, d) ∈ ds)
    (hpos : 0 < d.size.toNat) (hnumber : Text.number? d.name = none)
    (hlabel : d.name ∉ layout.labels.map Prod.fst) : ∃ a, layout.Locates image d a := by
  obtain ⟨before, after, hds⟩ := List.append_of_mem hd
  obtain ⟨hlookup, hlt⟩ := h.starts before (line, d) after hds
  have haddress : (UInt32.ofNat (image.code.length + Draft.dataSizeOf before)).toNat =
      image.code.length + Draft.dataSizeOf before := UInt32.toNat_ofNat_of_lt' hlt
  have hholds (k : Nat) : layout.Holds d k ↔
      image.code.length + Draft.dataSizeOf before ≤ k ∧
        k < image.code.length + Draft.dataSizeOf before + d.size.toNat := by
    rw [Holds, hlookup]
    simp
  -- the last byte of the buffer is in the memory, so all of it is
  have hlast := ((h.covered (image.code.length + Draft.dataSizeOf before + d.size.toNat - 1)).2
    ⟨(line, d), hd, (hholds _).2 (by omega)⟩).2
  refine ⟨_, resolve_of_lookup hnumber hlabel hlookup, ?_, ?_⟩
  · rw [haddress]
    omega
  · rw [haddress]
    exact hholds

/-- A store at the beginning of a buffer stays in it. -/
theorem Locates.fills {κ : Type} [Console κ] {c : κ} {s : Step κ} {src : Direct Text}
    (ha : layout.Locates image d a) (hsize : 4 ≤ d.size.toNat)
    (hmemory : m.memory.size = image.memory.length) (hrun : m.status = .running)
    (hs : layout.Carries m c (.store d.name src) s)
    (hv : layout.Reads (m.skip (Instruction.store d.name src).size) src.toOperand (some v)) :
    layout.Fills d m s ∧ s.machine.memory = m.memory.write a.toNat v.toBytes := by
  have hinside : m.memory.Inside a.toNat 4 := by
    have hle := ha.inside
    rw [← hmemory] at hle
    exact Nat.le_trans (Nat.add_le_add_left hsize _) hle
  have hstore : (m.skip (Instruction.store d.name src).size).memory.store? a v =
      some (m.memory.write a.toNat v.toBytes) := if_pos hinside
  obtain ⟨hmachine, hsound⟩ := hs.eq_done (.store ha.resolve hv hstore)
  rw [hmachine]
  refine ⟨⟨by rw [hmachine]; exact hrun, hsound, ?_⟩, rfl⟩
  intro k hk
  rw [ha.holds] at hk
  rw [hmachine]
  refine Memory.getElem?_write_of_outside ?_
  rw [Word.length_toBytes]
  omega

/-- A word whose bytes are at the beginning of a buffer is what is loaded from it. -/
theorem Locates.yields {lines : List Line} (ha : layout.Locates image d a)
    (h : image.Assembled layout lines) (hinside : m.memory.Inside a.toNat 4)
    (hbytes : ∀ k < 4, m.memory.bytes[a.toNat + k]? = v.toBytes[k]?) :
    image.Yields lines d v m := by
  intro before l after r κ _ c hlines hl hr hm
  subst hlines
  obtain ⟨s, hstep, hs⟩ := h.exists_carries c hl hm
  have hreads : layout.Reads (m.skip (Instruction.move r (.memory d.name)).size)
      (.memory d.name) (some v) := by
    have hload := Memory.load?_of_bytes hinside hbytes
    rw [← hload]
    exact .memory ha.resolve
  obtain ⟨hmachine, hsound⟩ := hs.eq_done (.move hreads)
  refine ⟨s, hstep, hsound, ?_⟩
  have hne : r ≠ .rS := by
    rintro rfl
    exact absurd hr (by decide)
  rw [hmachine, Machine.get_set_self, if_neg hne]

end Layout

/-- A buffer with room for a word, whose name is that of nothing else, works as a variable. -/
theorem Image.Assembled.remembers {image : Image} {layout : Layout} {lines : List Line}
    {d : Declaration} {a : Word} (h : image.Assembled layout lines)
    (ha : layout.Locates image d a) (hsize : 4 ≤ d.size.toNat) :
    image.Remembers layout lines d := by
  intro before l after src m κ _ c hlines hl hm hmemory
  subst hlines
  obtain ⟨s, hstep, hs⟩ := h.exists_carries c hl hm
  -- an operand that is no memory always has a value
  obtain ⟨v, hv⟩ : ∃ v, layout.Reads (m.skip (Instruction.store d.name src).size)
      src.toOperand (some v) := by
    obtain ⟨i', hi, -⟩ := hs.decoded
    obtain ⟨address, -, hrest⟩ := exists_of_bind_eq_ok hi
    obtain ⟨src', hsrc, -⟩ := exists_of_map_eq_ok hrest
    exact ⟨_, Layout.reads_of_resolve_direct _ hsrc⟩
  obtain ⟨hfills, hwritten⟩ := ha.fills hsize hmemory hm.running hs hv
  refine ⟨s, v, hstep, hfills, hv, ?_⟩
  intro uses hkept
  have hextent := (s.machine.sameExtent_after uses).trans (Machine.sameExtent_of_step hstep)
  have hend : a.toNat + 4 ≤ m.memory.size := by
    have hle := ha.inside
    omega
  refine ha.yields h ?_ ?_
  · show a.toNat + 4 ≤ (s.machine.after uses).memory.size
    rw [hextent.size]
    exact hend
  · intro k hk
    have hlen : v.toBytes.length = 4 := v.length_toBytes
    rw [hkept _ ((ha.holds _).2 (by omega)), hwritten]
    exact Memory.getElem?_write_of_inside (by rw [hlen]; exact hend) (by omega)

/-- The buffers of a program that is assembled tile its data, and each of them that has room for
a word and a name of its own works as a variable. -/
theorem buffers_of_assemble {source : String} {image : Image} (h : assemble source = .ok image) :
    ∃ layout, Layout.ofLines (Line.ofText source.toList) = .ok layout ∧
      layout.Tiles image (Line.declarations (Line.ofText source.toList)) ∧
      ∀ line d, (line, d) ∈ Line.declarations (Line.ofText source.toList) → 4 ≤ d.size.toNat →
        Text.number? d.name = none → ¬Stated (Line.ofText source.toList) (.label d.name) →
        image.Remembers layout (Line.ofText source.toList) d := by
  obtain ⟨layout, emission, hlayout, hemission, himage⟩ := exists_of_assembleLines h
  have hassembled := Image.assembled_of_assemble h hlayout
  have htiles := Layout.tiles_of_assembled hassembled (by rw [himage])
  refine ⟨layout, hlayout, htiles, ?_⟩
  intro line d hd hsize hnumber hlabel
  obtain ⟨draft, hdraft, -, hlabels, -⟩ := Layout.exists_of_ofLines hlayout
  have hfree : d.name ∉ layout.labels.map Prod.fst := by
    rw [hlabels, (Draft.covers_of_ofLines hdraft).labels]
    exact hlabel
  obtain ⟨a, ha⟩ := htiles.exists_locates hd (by omega) hnumber hfree
  exact hassembled.remembers ha hsize

/-- A program with data on both sides of its code, an empty buffer, and a buffer at the very end of
the memory. -/
def tiled : String :=
  "_data:\nDB low[4]\nDB none[0]\n_main:\nmov [high], 7\nmov [low], r1\nmov r2, [high]\n" ++
    "_data:\nDB high[4]"

def tiledImage : Image where
  entry := 0
  code := [1, 50, 28, 0, 0, 0, 7, 0, 0, 0, 1, 49, 24, 0, 0, 0, 0, 1, 19, 1, 28, 0, 0, 0]
  data := [0, 0, 0, 0, 0, 0, 0, 0]

/-- The store to the other buffer in between does no harm. -/
theorem buffers_of_assemble_tiled :
    ∃ (s t : Step Buffer), (Machine.ofImage tiledImage).step? (Buffer.ofInput []) = some s ∧
      (s.machine.after [.step s.console]).step? (Buffer.ofInput [0x21]) = some t ∧
      (∀ f ip, Event.fault f ip ∉ t.events) ∧ t.machine.get .r2 = 7 := by
  have hassemble : assemble tiled = .ok tiledImage := rfl
  have hdraft : Draft.ofLines (Line.ofText tiled.toList) =
      .ok ⟨some .data, true, 24, [], [(2, ⟨"low".toList, 4⟩), (3, ⟨"none".toList, 0⟩),
        (9, ⟨"high".toList, 4⟩)]⟩ := rfl
  have hlines : Line.ofText tiled.toList =
      [⟨1, "_data:".toList⟩, ⟨2, "DB low[4]".toList⟩, ⟨3, "DB none[0]".toList⟩,
        ⟨4, "_main:".toList⟩] ++ ⟨5, "mov [high], 7".toList⟩ ::
        [⟨6, "mov [low], r1".toList⟩, ⟨7, "mov r2, [high]".toList⟩, ⟨8, "_data:".toList⟩,
          ⟨9, "DB high[4]".toList⟩] := rfl
  have hlines' : Line.ofText tiled.toList =
      [⟨1, "_data:".toList⟩, ⟨2, "DB low[4]".toList⟩, ⟨3, "DB none[0]".toList⟩,
        ⟨4, "_main:".toList⟩, ⟨5, "mov [high], 7".toList⟩, ⟨6, "mov [low], r1".toList⟩] ++
        ⟨7, "mov r2, [high]".toList⟩ :: [⟨8, "_data:".toList⟩, ⟨9, "DB high[4]".toList⟩] := rfl
  have hfree : ¬Stated (Line.ofText tiled.toList) (.label "high".toList) := by
    rw [← (Draft.covers_of_ofLines hdraft).labels]
    exact List.not_mem_nil
  obtain ⟨layout, -, htiles, hvariables⟩ := buffers_of_assemble hassemble
  have hds : Line.declarations (Line.ofText tiled.toList) =
      [(2, ⟨"low".toList, 4⟩), (3, ⟨"none".toList, 0⟩)] ++ (9, ⟨"high".toList, 4⟩) :: [] := rfl
  obtain ⟨hstart, -⟩ := htiles.starts _ _ _ hds
  obtain ⟨s, v, hstep, -, hv, hyields⟩ :=
    hvariables 9 ⟨"high".toList, 4⟩ (by rw [hds]; simp) (by decide) rfl hfree _ _ _
      (.immediate ['7']) (.ofImage tiledImage) Buffer (Buffer.ofInput []) hlines rfl
      ⟨rfl, rfl, rfl, by decide⟩ rfl
  have hs : s = ((Machine.ofImage tiledImage).step? (Buffer.ofInput [])).get (by decide) :=
    (Option.get_of_eq_some _ hstep).symm
  have hv7 : v = 7 := by
    cases hv with
    | immediate hresolve => exact (Option.some.inj hresolve).symm
  have hkept : ∀ k < 32, 28 ≤ k →
      (s.machine.after [.step s.console]).memory.bytes[k]? = s.machine.memory.bytes[k]? := by
    rw [hs]
    decide +kernel
  have hat : tiledImage.At (s.machine.after [.step s.console]) 17 7 := by
    rw [hs]
    exact ⟨by decide +kernel, by decide +kernel, by decide +kernel, by decide +kernel⟩
  obtain ⟨t, ht, hsound, hget⟩ := hyields [.step s.console] (by
    rintro k ⟨start, hlookup, hlow, hhigh⟩
    cases hstart.symm.trans hlookup
    exact hkept k hhigh hlow) _ _ _ .r2 Buffer (Buffer.ofInput [0x21]) hlines' rfl
      (by decide) hat
  exact ⟨s, t, hstep, ht, hsound, hget.trans hv7⟩

end RegisterMachine
