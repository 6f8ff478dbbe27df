import FpgaLabor.System.AudioPath
import FpgaLabor.System.Capture

/-!
# From the serial line to the datagrams

The input side with its FIFOs in front of the core, and the DMA ring and the Ethernet side behind it. From the
second packet on, datagram after datagram, the words sent are those of the shipped filter over what the serial
line carried, for every third frame and without a gap (`serial_path`). Left and right are of one frame if audio
is enabled in a high half of LRCLK.
-/

namespace FpgaLabor

open AudioInterface (lrclk)
open Host (Event beats step start)
open ShiftRegister

/-! ### The words sent -/

/-- The sample of edge `z` of the serial line, `0` for `z` before the first edge. -/
def lineSample (u : CaptureRun) (edges : List ℕ) (z : ℤ) : ℤ :=
  if 0 ≤ z then (edges[z.toNat]?.map fun j => (⟨u.word (j + 2)⟩ : DinT).raw).getD 0 else 0

/-- The word of the shipped filter at edge `k` of the serial line. -/
def lineWord (u : CaptureRun) (edges : List ℕ) (k : ℕ) : BitVec 32 :=
  (ApFixed.ofRaw (tapSum (coeffTable filter512Data) 511 (fun i => lineSample u edges (k - i)) / 2 ^ 15) : DoutT).V

/-- The falls of LRCLK since audio was enabled, up to cycle `T`. -/
def SteadyCapture.falls (u : SteadyCapture) (T : ℕ) : List ℕ :=
  samplesIn (fall (lrclk u.codec)) (u.enable - 2) (T - 2)

/-- The rises of LRCLK since audio was enabled, up to cycle `T`. -/
def SteadyCapture.rises (u : SteadyCapture) (T : ℕ) : List ℕ :=
  samplesIn (rise (lrclk u.codec)) (u.enable - 2) (T - 2)

section Words

variable {u : CaptureRun} {calls : List FirHwArgs} {input : FirHwArgs → DinT} {fifo : List (BitVec 24)}
  {edges : List ℕ} {k : ℕ}
  (h : calls.map (fun args => (input args).V) ++ fifo = edges.map (u.word ∘ (· + 2)))
include h

theorem rawInput_eq {z : ℤ} (hz : z < calls.length) : rawInput input calls z = lineSample u edges z := by
  unfold rawInput lineSample
  split_ifs with hpos
  · have hlt : z.toNat < calls.length := by omega
    obtain ⟨j, hj, hword⟩ := exists_of_kept h hlt
    have hsample : input calls[z.toNat] = ⟨u.word (j + 2)⟩ := by rw [← hword]
    rw [hj, List.getElem?_eq_getElem hlt, Option.map_some, Option.map_some, hsample]
  · rfl

/-- The filter over the calls is the filter over the serial line. -/
theorem filterWord_eq (hk : k < calls.length) : (filterWord input calls k).V = lineWord u edges k := by
  have hinput : ∀ i : ℕ, rawInput input calls (k - i) = lineSample u edges (k - i) :=
    fun i => rawInput_eq h (by omega)
  simp only [filterWord, lineWord, hinput]

end Words

/-! ### Which frames a packet has -/

/-- The pairs of the stream. -/
def Startup.pairs (v : Startup) : List (ℕ × AxisType × AxisType) :=
  pairsFrom 0 (Mealy.outputs firHw FirHwState.initial v.calls)

/-- The call that emits the first pair of the second packet. -/
def Startup.firstFrame (v : Startup) : ℕ := (v.pairs[128]?.map Prod.fst).getD 0

theorem number_of_pair (v : Startup) {k : ℕ} (hk : 128 + k < v.pairs.length) :
    (v.pairs[128 + k]).1 = v.firstFrame + 3 * k := by
  have hchain := isChain_late v (le_refl 128)
  rw [List.isChain_iff_getElem] at hchain
  induction k with
  | zero =>
    rw [Startup.firstFrame, List.getElem?_eq_getElem (by omega)]
    rfl
  | succ k ih =>
    have hnext := hchain k (by rw [List.length_drop]; change k + 1 < v.pairs.length - 128; omega)
    rw [List.getElem_drop, List.getElem_drop] at hnext
    have hprev := ih (by omega)
    change (v.pairs[128 + (k + 1)]).1 = (v.pairs[128 + k]).1 + 3 at hnext
    omega

/-- The core of the input side, started up in it. -/
structure SerialStartup extends SteadyCapture where
  startup : Startup
  cyclesIn : ℕ
  core_eq : startup.core = core
  reset_eq : startup.reset = reset
  cycles_eq : startup.init ++ startup.after = toSteadyCapture.cycles cyclesIn

theorem SerialStartup.calls_eq (w : SerialStartup) : w.startup.calls = w.calls w.cyclesIn := by
  rw [StartupRun.calls, StartupRun.final, w.cycles_eq, StartupRun.start, w.core_eq, w.reset_eq, CaptureRun.calls,
    CaptureRun.firHw_stateIn]

theorem SerialStartup.pairWords_eq (w : SerialStartup) {packet : ℕ} (hpacket : 1 ≤ packet) {k : ℕ}
    (hk : k < (packetPairs w.startup.calls packet).length) :
    let frame := w.startup.firstFrame + 384 * (packet - 1) + 3 * k
    frame < (w.falls w.cyclesIn).length ∧ frame < (w.rises w.cyclesIn).length ∧
      pairWords (packetPairs w.startup.calls packet)[k] =
        [lineWord w.toCaptureRun (w.falls w.cyclesIn) frame,
          lineWord w.toCaptureRun (w.rises w.cyclesIn) frame] := by
  intro frame
  have hmem : (packetPairs w.startup.calls packet)[k] ∈ packetPairs w.startup.calls packet := List.getElem_mem hk
  have hlt := (mem_packetPairs hmem).1
  obtain ⟨hl, hr⟩ := (filtered_packet w.startup hpacket).2 _ hmem
  have hlength : 128 + (128 * (packet - 1) + k) < w.startup.pairs.length := by
    have hk' := hk
    rw [packetPairs, List.length_take, List.length_drop] at hk'
    change k < min 128 (w.startup.pairs.length - 128 * packet) at hk'
    omega
  have hframe : (packetPairs w.startup.calls packet)[k].1 = frame := by
    have hnumber := number_of_pair w.startup hlength
    simp only [packetPairs, List.getElem_take, List.getElem_drop]
    simp only [show 128 * packet + k = 128 + (128 * (packet - 1) + k) by omega]
    change (w.startup.pairs[128 + (128 * (packet - 1) + k)]).1 = _
    rw [hnumber]
    omega
  have hkept := w.toSteadyCapture.kept w.cyclesIn w.cyclesIn (le_refl _)
  have hleft := hkept.left
  have hright := hkept.right
  obtain ⟨hlengthL, hlengthR⟩ := hkept.lengths
  rw [w.leftWrites_eq, ← w.calls_eq] at hleft hlengthL
  rw [w.rightWrites_eq, ← w.calls_eq] at hright hlengthR
  rw [List.map_map] at hleft hright
  rw [List.length_map] at hlengthL hlengthR
  rw [hframe] at hlt hl hr
  refine ⟨?_, ?_, ?_⟩
  · exact Nat.lt_of_lt_of_le hlt (Nat.le_of_add_right_le (Nat.le_of_eq hlengthL))
  · exact Nat.lt_of_lt_of_le hlt (Nat.le_of_add_right_le (Nat.le_of_eq hlengthR))
  · rw [pairWords, hl, hr, filterWord_eq hleft hlt, filterWord_eq hright hlt]
    rfl

/-- **From the serial line to the datagrams.** The codec's samples come in as the FIFOs and the core can take
them, from a high half of LRCLK on, and `FIR_init` has programmed the core. Then there is a frame from which on,
in every interleaving of the DMA, its interrupts and the main loop, datagram `packet` holds the words of the
shipped filter for 128 frames, every third one, left and right in turn, and the next packet goes on three frames
after the last of them. -/
theorem serial_path (w : SerialStartup) (hhigh : prev (lrclk w.codec) (w.enable - 2) = true) :
    (∀ j, Carries w.codec j (w.word (j + 2))) ∧
    ∀ (iocMask : BitVec 32) (buff buffSize : ℕ) (mem : ℕ → BitVec 32), 1024 ∣ buffSize → 2 ≤ buffSize / 1024 →
      ∀ es s, Lts.run (step iocMask) (start buff buffSize mem) es = some s →
        storedWords es <+: w.startup.delivered.map (·.data.V) →
        ∀ snd, s.pc = .sending snd → s.completed.length < snd.packet + (buffSize / 1024 - 1) → 2 ≤ snd.packet →
          let frame := fun k => w.startup.firstFrame + 384 * (snd.packet - 2) + 3 * k
          (∀ k < 128, ∃ j j', (w.falls w.cyclesIn)[frame k]? = some j ∧ (w.rises w.cyclesIn)[frame k]? = some j' ∧
            NextRise (lrclk w.codec) j j') ∧
            BlockRing.block s.mem beats snd.payload = (List.range 128).flatMap fun k =>
              [lineWord w.toCaptureRun (w.falls w.cyclesIn) (frame k),
                lineWord w.toCaptureRun (w.rises w.cyclesIn) (frame k)] := by
  refine ⟨carries_word w.toSteadyCapture, ?_⟩
  intro iocMask buff buffSize mem hdvd hn es s hrun hstream snd hpc hfew hlate frame
  obtain ⟨-, hlength, hblock⟩ := datagram_pairs w.startup hdvd hn hrun hstream hpc hfew
  have hpacket : 1 ≤ snd.packet - 1 := by omega
  refine ⟨fun k hk => ?_, ?_⟩
  · obtain ⟨hfalls, hrises, -⟩ := w.pairWords_eq hpacket (hk.trans_eq hlength.symm)
    have hj := List.getElem?_eq_getElem hfalls
    have hj' := List.getElem?_eq_getElem hrises
    exact ⟨_, _, hj, hj', w.toSteadyCapture.nextRise hhigh hj hj'⟩
  · rw [hblock, List.flatMap_def, List.flatMap_def]
    congr 1
    apply List.ext_getElem
    · simp [hlength]
    · intro k hk hk'
      rw [List.getElem_map, List.getElem_map, List.getElem_range]
      rw [List.length_map] at hk
      exact (w.pairWords_eq hpacket hk).2.2

/-! ### The slow codec and a processor that calls `FIR_init` -/

namespace FirHwRtl

-- The stores are never evaluated.
attribute [local irreducible] initStores

theorem length_firInit (p : XFirHw) (f : RegisterFile) :
    ((firInit (some p)).accesses RegisterFile.device f).length = 515 := by
  have hwords : ∀ g : RegisterFile,
      ((p.writeCoeffHwWords 0 rawCoeffs 512).accesses RegisterFile.device g).length = 512 := by
    intro g
    rw [XFirHw.writeCoeffHwWords, if_neg (by decide), BusProgram.accesses_bind,
      BusProgram.accesses_forRange _ _ _ fun i t => accesses_xilOut32 _ _ t _, BusProgram.accesses_pure,
      List.append_nil, List.length_flatMap]
    simp only [List.length_singleton, List.map_const', List.length_range, List.sum_replicate, smul_eq_mul, mul_one]
    rfl
  simp only [firInit, BusProgram.accesses_bind, List.length_append, hwords, XFirHw.setTapNumM1, XFirHw.setSmplRdNum,
    XFirHw.setTlastDnum, XFirHw.writeReg, accesses_xilOut32, List.length_singleton]

/-- The bus while the processor programs the core, and afterwards. -/
def serialFir (t : ℕ) : FirCycle := (shippedRun.init ++ [lastStoreCycle])[t]?.getD (busCycle idleIn)

theorem serialFir_eq (t : ℕ) : ∃ bus, serialFir t = busCycle bus := by
  unfold serialFir
  rcases h : (shippedRun.init ++ [lastStoreCycle])[t]? with _ | i
  · exact ⟨idleIn, rfl⟩
  · rcases List.mem_append.mp (List.mem_of_getElem? h) with hi | hi
    · exact mem_init_shippedRun hi
    · exact ⟨_, List.mem_singleton.mp hi⟩

theorem resTready_serialFir (t : ℕ) : (serialFir t).resTready = true := by
  obtain ⟨bus, hbus⟩ := serialFir_eq t
  rw [hbus]
  rfl

/-- The input side with that bus. -/
def serialCapture : SteadyCapture := slowCapture serialFir resTready_serialFir

theorem length_init_shippedRun : shippedRun.init.length = 1545 := by
  have hstores : initStores.dropLast.length = 514 := by
    rw [List.length_dropLast, initStores, List.length_map, length_firInit]
  have hcycles : (initStores.dropLast.flatMap accessCycles).length = 3 * 514 := by
    rw [← hstores]
    have haligned := fun op hop => alignedStore_initStores op (List.mem_of_mem_dropLast hop)
    revert haligned
    generalize initStores.dropLast = ops
    intro haligned
    induction ops with
    | nil => rfl
    | cons op ops ih =>
      obtain ⟨addr, data, strb, rfl, -⟩ := haligned op List.mem_cons_self
      rw [List.flatMap_cons, List.length_append, ih fun o ho => haligned o (List.mem_cons_of_mem _ ho), accessCycles,
        List.length_replicate, List.length_cons]
      omega
  have hbefore : shippedRun.before =
      busCycle idleIn :: (initStores.dropLast.flatMap accessCycles ++ [lastStoreCycle]) := rfl
  rw [StartupRun.init, hbefore, List.length_append, List.length_cons, List.length_append, hcycles]
  rfl

theorem length_programming : (shippedRun.init ++ [lastStoreCycle]).length = 1546 := by
  rw [List.length_append, length_init_shippedRun]
  rfl

theorem empty_serialCapture {t : ℕ} (ht : t ≤ 3500) :
    serialCapture.calls t = [] ∧ serialCapture.fifoWords1 t = [] ∧ serialCapture.fifoWords2 t = [] := by
  have hkept := serialCapture.kept t t (le_refl t)
  have hnone : ∀ p, samplesIn p (serialCapture.enable - 2) (t - 2) = [] := by
    intro p
    have henable : serialCapture.enable = 3500 := rfl
    rw [henable, samplesIn, show t - 2 - (3500 - 2) = 0 by omega]
    rfl
  have hleft := hkept.left
  have hright := hkept.right
  rw [serialCapture.leftWrites_eq, hnone, List.map_nil, List.map_nil, List.append_eq_nil_iff] at hleft
  rw [serialCapture.rightWrites_eq, hnone, List.map_nil, List.map_nil, List.append_eq_nil_iff] at hright
  exact ⟨List.map_eq_nil_iff.mp hleft.1, hleft.2, hright.2⟩

theorem cycle_serialCapture {t : ℕ} (ht : t ≤ 3500) : serialCapture.cycle t = serialFir t := by
  obtain ⟨-, h1, h2⟩ := empty_serialCapture ht
  obtain ⟨bus, hbus⟩ := serialFir_eq t
  have hfir : (serialCapture.inp t).fir = busCycle bus := hbus
  have hrst : (serialCapture.inp t).codec.rstN = true := rfl
  have hvalid1 : (serialCapture.stateIn t).valid1 = false := serialCapture.lawful1.not_valid h1
  have hvalid2 : (serialCapture.stateIn t).valid2 = false := serialCapture.lawful2.not_valid h2
  rw [CaptureRun.cycle, Capture.firCycle, hvalid1, hvalid2, hfir, hbus, hrst]
  simp only [Bool.false_eq_true, if_false]
  rfl

theorem bus_serialCapture (t : ℕ) : (serialCapture.cycle t).bus = (serialFir t).bus := rfl

theorem take_serialCapture :
    (serialCapture.cycles 2000000).take 1546 = shippedRun.init ++ [lastStoreCycle] := by
  have hlength := length_programming
  rw [serialCapture.take_cycles (by decide)]
  apply List.ext_getElem
  · rw [hlength, CaptureRun.cycles, List.length_map, List.length_range]
  · intro t ht ht'
    rw [hlength] at ht'
    simp only [CaptureRun.cycles, List.getElem_map, List.getElem_range]
    rw [cycle_serialCapture (by omega), serialFir, List.getElem?_eq_getElem (by omega), Option.getD_some]

/-- What comes after the programming. -/
def serialAfter : List FirCycle := (serialCapture.cycles 2000000).drop 1546

theorem cycles_serialCapture :
    shippedRun.init ++ (lastStoreCycle :: serialAfter) = serialCapture.cycles 2000000 := by
  rw [serialAfter, ← List.singleton_append, ← List.append_assoc, ← take_serialCapture, List.take_append_drop]

theorem mem_serialAfter {i : FirCycle} (hi : i ∈ serialAfter) : i.apRstN = true ∧ i.bus = idleIn := by
  obtain ⟨k, hk, rfl⟩ := List.mem_iff_getElem.mp hi
  have hlength := length_programming
  simp only [serialAfter, CaptureRun.cycles, List.getElem_drop, List.getElem_map, List.getElem_range]
  refine ⟨serialCapture.apRstN_cycle _, ?_⟩
  rw [bus_serialCapture, serialFir, List.getElem?_eq_none (by omega)]
  rfl

/-- The shipped run, with the serial line after it. -/
def serialRun : StartupRun := { shippedRun with after := lastStoreCycle :: serialAfter }

theorem start_serialRun : serialRun.start = shippedRun.start := by simp only [StartupRun.start, serialRun]

theorem init_serialRun : serialRun.init = shippedRun.init := by simp only [StartupRun.init, serialRun]

theorem atInit_serialRun : serialRun.atInit = shippedRun.atInit := by
  rw [StartupRun.atInit, StartupRun.atInit, start_serialRun, init_serialRun]

theorem quiet_serialRun : Mealy.collect stepTraced committed serialRun.atInit serialRun.after = [] := by
  obtain ⟨-, -, hagain⟩ := committed_shippedRun
  have hafter : serialRun.after = shippedRun.lastStore :: serialAfter := rfl
  rw [hafter, atInit_serialRun, Mealy.collect, hagain, List.nil_append]
  apply Mealy.collect_eq_nil
  intro p i hi
  exact committed_idleIn p (mem_serialAfter hi).2

theorem stays_serialRun : ∀ i ∈ serialRun.after, i.apRstN = true := by
  intro i hi
  rcases List.mem_cons.mp hi with rfl | hi
  · rfl
  · exact (mem_serialAfter hi).1

theorem isRead_serialRun :
    ∀ op ∈ Mealy.collect stepTraced committed serialRun.atInit serialRun.after, IsRead op := by
  rw [quiet_serialRun]
  exact nofun

theorem runs_serialRun : ∀ i ∈ serialRun.init, i.apRstN = true := by
  rw [init_serialRun]
  exact apRstN_shippedRun

theorem inits_serialRun : Mealy.collect stepTraced committed serialRun.start serialRun.init =
    serialRun.earlier ++ ((firInit (some serialRun.driver)).accesses RegisterFile.device
      (Mealy.runState RegisterFile.access serialRun.start.1.registerFile serialRun.earlier)).map
        BusAccess.toAccess := by
  have hearlier : serialRun.earlier = shippedRun.earlier := by simp only [serialRun]
  have hdriver : serialRun.driver = shippedRun.driver := by simp only [serialRun]
  rw [start_serialRun, init_serialRun, hearlier, hdriver]
  exact inits_shippedRun

theorem stores_serialRun :
    committed (Mealy.runState stepTraced serialRun.start serialRun.before) serialRun.lastStore ≠ [] := by
  have hbefore : serialRun.before = shippedRun.before := by simp only [serialRun]
  have hlast : serialRun.lastStore = shippedRun.lastStore := by simp only [serialRun]
  rw [start_serialRun, hbefore, hlast]
  exact stores_shippedRun

theorem withheld_serialRun : serialRun.atInit.2.delivered.length < 254 := by
  rw [atInit_serialRun]
  exact withheld_shippedRun

/-- The run starts the core up, too. -/
def serialStartupRun : Startup :=
  ⟨serialRun, initial_powerOn, rfl, rfl, runs_serialRun, stays_serialRun, inits_serialRun, stores_serialRun,
    reads_shippedRun, isRead_serialRun, withheld_serialRun⟩

theorem cycles_serialStartupRun :
    serialStartupRun.init ++ serialStartupRun.after = serialCapture.cycles 2000000 := by
  have hrun : serialStartupRun.toStartupRun = serialRun := by simp only [serialStartupRun]
  have hafter : serialRun.after = lastStoreCycle :: serialAfter := by simp only [serialRun]
  rw [hrun, init_serialRun, hafter]
  exact cycles_serialCapture

/-- The shipped system with the slow codec. -/
def serialStartup : SerialStartup :=
  ⟨serialCapture, serialStartupRun, 2000000, rfl, rfl, cycles_serialStartupRun⟩

theorem calls_atInit_serialRun : serialStartupRun.atInit.2.calls = [] := by
  have hrun : serialStartupRun.toStartupRun = serialRun := by simp only [serialStartupRun]
  have hcycles : shippedRun.init = serialCapture.cycles 1545 := by
    rw [← serialCapture.take_cycles (show 1545 ≤ 2000000 by decide), ← cycles_serialCapture,
      List.take_append_of_le_length (le_of_eq length_init_shippedRun.symm),
      List.take_of_length_le (le_of_eq length_init_shippedRun)]
  rw [hrun, StartupRun.atInit, init_serialRun, hcycles]
  have hcore := serialCapture.firHw_stateIn 1545
  have hcalls := (empty_serialCapture (t := 1545) (by decide)).1
  rw [CaptureRun.calls, hcore] at hcalls
  exact hcalls

theorem length_delivered_serial : 513 ≤ serialStartupRun.delivered.length := by
  have hcalls : 900 ≤ serialStartupRun.calls.length := by
    have heq : serialStartupRun.calls = serialCapture.calls 2000000 := serialStartup.calls_eq
    rw [heq]
    exact le_length_calls_slow serialFir resTready_serialFir 900 (by decide)
  have haccepted := serialStartupRun.length_calls
  have hbeats := serialStartupRun.delivered_ge
  rw [calls_atInit_serialRun, List.length_nil] at haccepted
  generalize serialStartupRun.delivered.length = beats at hbeats ⊢
  omega

theorem high_serialStartup : prev (lrclk serialStartup.codec) (serialStartup.enable - 2) = true := by
  have hcapture : serialStartup.toSteadyCapture = serialCapture := by simp only [serialStartup]
  rw [hcapture]
  exact high_slowCapture serialFir resTready_serialFir

end FirHwRtl

open FirHwRtl (serialStartup serialStartupRun length_delivered_serial high_serialStartup) in
theorem serial_path_shipped : ∃ (s : Host.State) (snd : Host.Send), s.pc = .sending snd ∧ snd.packet = 2 ∧
    (∀ k < 128, ∃ j j',
      (serialStartup.falls serialStartup.cyclesIn)[serialStartup.startup.firstFrame + 3 * k]? = some j ∧
      (serialStartup.rises serialStartup.cyclesIn)[serialStartup.startup.firstFrame + 3 * k]? = some j' ∧
      NextRise (lrclk serialStartup.codec) j j' ∧ Carries serialStartup.codec j (serialStartup.word (j + 2)) ∧
      Carries serialStartup.codec j' (serialStartup.word (j' + 2))) ∧
    BlockRing.block s.mem beats snd.payload = (List.range 128).flatMap fun k =>
      [lineWord serialStartup.toCaptureRun (serialStartup.falls serialStartup.cyclesIn)
          (serialStartup.startup.firstFrame + 3 * k),
        lineWord serialStartup.toCaptureRun (serialStartup.rises serialStartup.cyclesIn)
          (serialStartup.startup.firstFrame + 3 * k)] := by
  have hlong : 513 ≤ (serialStartup.startup.delivered.map (·.data.V)).length := by
    have hstartup : serialStartup.startup = serialStartupRun := by simp only [serialStartup]
    rw [hstartup, List.length_map]
    exact length_delivered_serial
  have hpath := serial_path serialStartup high_serialStartup
  -- nothing of the run is evaluated
  generalize serialStartup = w at hlong hpath ⊢
  obtain ⟨es, s, snd, hrun, hstream, hpc, hpacket, hcompleted, -⟩ := run_secondDatagram hlong
  have hdatagram := hpath.2 0x1000 0 2048 (fun _ => 0) (by decide) (by decide) es s hrun hstream snd hpc
    (by rw [hpacket, hcompleted]; decide) (le_of_eq hpacket.symm)
  have hfirst : ∀ k, w.startup.firstFrame + 384 * (snd.packet - 2) + 3 * k = w.startup.firstFrame + 3 * k := by
    intro k
    omega
  simp only [hfirst] at hdatagram
  obtain ⟨hframes, hblock⟩ := hdatagram
  refine ⟨s, snd, hpc, hpacket, fun k hk => ?_, hblock⟩
  obtain ⟨j, j', hj, hj', hnext⟩ := hframes k hk
  exact ⟨j, j', hj, hj', hnext, hpath.1 j, hpath.1 j'⟩

end FpgaLabor
