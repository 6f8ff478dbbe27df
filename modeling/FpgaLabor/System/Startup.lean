import FpgaLabor.Hls.Framing
import FpgaLabor.System.Programming

/-!
# The stream from the reset on

The core takes samples from its reset on, and `FIR_init` sets `tlast_dnum` with its last store only: until
then the beats are counted without a limit. As long as the sink has taken fewer than 254 beats by then, the
packets of the whole stream have 256 beats each, from the first beat on (`startup_framed`).
-/

namespace FpgaLabor

open CallTrace (empty emitted)
open FirHwRtl (stepTraced committed acceptedPair IsRead Running ProgrammedFrom)

/-! ### Runs from the reset through `FIR_init` -/

/-- A reset, the cycles up to the one in which the last store of `FIR_init` takes effect, and those after it.
The accesses `earlier` precede the ones of `FIR_init`. -/
structure StartupRun where
  core : FirHwRtl
  reset : FirCycle
  before : List FirCycle
  lastStore : FirCycle
  after : List FirCycle
  driver : XFirHw
  earlier : List Access

namespace StartupRun

variable (u : StartupRun)

/-- The core after the reset. -/
def start : FirHwRtl × CallTrace FirHwArgs AxisType := ((u.core.step u.reset).1, empty)

/-- The cycles up to the last store of `FIR_init`. -/
def init : List FirCycle := u.before ++ [u.lastStore]

/-- The core when `FIR_init` has taken effect. -/
def atInit : FirHwRtl × CallTrace FirHwArgs AxisType := Mealy.runState stepTraced u.start u.init

/-- The core at the end. -/
def final : FirHwRtl × CallTrace FirHwArgs AxisType := Mealy.runState stepTraced u.start (u.init ++ u.after)

/-- The calls of the run. -/
def calls : List FirHwArgs := u.final.2.calls

/-- The beats that have left the core. -/
def delivered : List AxisType := u.final.2.delivered

end StartupRun

/-- The core is reset without samples, nothing but `FIR_init` writes to it, and the sink takes fewer than 254
beats before that has taken effect. -/
structure Startup extends StartupRun where
  powerOn : core.PowerOn
  resets : reset.apRstN = false
  idle : FirHwRtl.apBlockState1 reset = true
  runs : ∀ i ∈ toStartupRun.init, i.apRstN = true
  stays : ∀ i ∈ after, i.apRstN = true
  inits : Mealy.collect stepTraced committed toStartupRun.start toStartupRun.init =
    earlier ++ ((firInit (some driver)).accesses RegisterFile.device
      (Mealy.runState RegisterFile.access toStartupRun.start.1.registerFile earlier)).map BusAccess.toAccess
  stores : committed (Mealy.runState stepTraced toStartupRun.start before) lastStore ≠ []
  reads : ∀ op ∈ earlier, IsRead op
  quiet : ∀ op ∈ Mealy.collect stepTraced committed toStartupRun.atInit after, IsRead op
  withheld : toStartupRun.atInit.2.delivered.length < 254

/-! ### Before the last store -/

/-- The access leaves `tlast_dnum` as it is. -/
def KeepsTlastDnum (op : Access) : Prop := ∀ f : RegisterFile, (f.access op).1.tlastDnum = f.tlastDnum

theorem keepsTlastDnum_of_isRead {op : Access} (h : IsRead op) : KeepsTlastDnum op := by
  intro f
  rw [FirHwRtl.access_of_isRead h]

theorem keepsTlastDnum_write {addr : BitVec 12} (data : BitVec 32) (strb : BitVec 4)
    (h : addrCoeffHwBase ≤ addr ∨ aligned addr ≠ addrTlastDnumData0) :
    KeepsTlastDnum (.write addr data strb) := by
  intro f
  simp only [RegisterFile.access, RegisterFile.write]
  split_ifs with hbase htlast
  · rfl
  · exact absurd htlast (h.resolve_left hbase)
  · rfl
  · rfl
  · rfl

theorem keepsTlastDnum_writeCoeffHwWords (p : XFirHw) (f : RegisterFile) :
    ∀ op ∈ (p.writeCoeffHwWords 0 rawCoeffs 512).accesses RegisterFile.device f, KeepsTlastDnum op.toAccess := by
  intro op hop
  rw [XFirHw.writeCoeffHwWords, if_neg (by decide), BusProgram.accesses_bind,
    BusProgram.accesses_forRange _ _ _ fun i t => accesses_xilOut32 _ _ t _] at hop
  simp only [BusProgram.accesses_pure, List.append_nil, List.mem_flatMap, List.mem_range,
    List.mem_singleton] at hop
  obtain ⟨i, hi, rfl⟩ := hop
  have haddr : ((0 : ℤ) + i) * 4 = (i * 4 : ℕ) := by push_cast; ring
  rw [haddr]
  apply keepsTlastDnum_write
  have hi' : i < 512 := hi
  exact .inl (base_le_coeffAddr p (by omega))

theorem keepsTlastDnum_writeReg (p : XFirHw) {regOffset : BitVec 12} (data : BitVec 32) (f : RegisterFile)
    (h : aligned regOffset ≠ addrTlastDnumData0) :
    ∀ op ∈ (p.writeReg regOffset data).accesses RegisterFile.device f, KeepsTlastDnum op.toAccess := by
  intro op hop
  rw [XFirHw.writeReg, accesses_xilOut32, List.mem_singleton] at hop
  subst hop
  apply keepsTlastDnum_write
  rw [setWidth_regAddr]
  exact .inr h

theorem accesses_setTlastDnum (p : XFirHw) (data : BitVec 32) (f : RegisterFile) :
    ((p.setTlastDnum data).accesses RegisterFile.device f).map BusAccess.toAccess =
      [.write addrTlastDnumData0 data (-1)] := by
  rw [XFirHw.setTlastDnum, XFirHw.writeReg, accesses_xilOut32, List.map_singleton, BusAccess.toAccess,
    setWidth_regAddr]

theorem accesses_firInit (p : XFirHw) (f : RegisterFile) :
    ∃ ops, ((firInit (some p)).accesses RegisterFile.device f).map BusAccess.toAccess =
        ops ++ [.write addrTlastDnumData0 256 (-1)] ∧ ∀ op ∈ ops, KeepsTlastDnum op := by
  simp only [firInit, BusProgram.accesses_bind, List.map_append, accesses_setTlastDnum, ← List.append_assoc]
  refine ⟨_, rfl, ?_⟩
  simp only [List.mem_append, List.mem_map]
  rintro op ((⟨a, ha, rfl⟩ | ⟨a, ha, rfl⟩) | ⟨a, ha, rfl⟩)
  · exact keepsTlastDnum_writeCoeffHwWords p _ a ha
  · exact keepsTlastDnum_writeReg p _ _ (by decide) a ha
  · exact keepsTlastDnum_writeReg p _ _ (by decide) a ha

/-- What holds while `tlast_dnum` is not set. -/
structure Unprogrammed (p : FirHwRtl × CallTrace FirHwArgs AxisType) : Prop where
  running : Running p
  register : p.1.registerFile.tlastDnum = 0
  calls : ∀ args ∈ p.2.calls, args.tlastDnum = 0

section Steps

variable {p : FirHwRtl × CallTrace FirHwArgs AxisType} {i : FirCycle}

theorem committed_of_ne_nil (h : committed p i ≠ []) : ∃ op, committed p i = [op] := by
  unfold committed ControlSAxi.commit at h ⊢
  split_ifs at h ⊢
  · exact ⟨_, rfl⟩
  · exact ⟨_, rfl⟩
  · exact absurd rfl h

theorem Unprogrammed.calls_step (h : Unprogrammed p) :
    ∀ args ∈ (stepTraced p i).1.2.calls, args.tlastDnum = 0 := by
  have hsequential : p.2.Sequential (p.1.event i) := FirHwRtl.callMachine.sequential h.running.1
  refine (CallTrace.forall_calls_record hsequential (Q := fun args : FirHwArgs => args.tlastDnum = 0)
    (n := 0) ?_ ?_ (Nat.zero_le _) h.calls).2
  · intro a ha
    unfold FirHwRtl.event at ha
    split_ifs at ha
    rw [← Option.some.inj ha]
    exact h.register
  · intro a ha
    exact (FirHwRtl.nextArgs_fields a).1.trans ha

theorem Unprogrammed.step (h : Unprogrammed p) (hrst : i.apRstN = true)
    (hkeeps : ∀ op ∈ committed p i, KeepsTlastDnum op) : Unprogrammed (stepTraced p i).1 := by
  refine ⟨h.running.step hrst, ?_, h.calls_step⟩
  have hstep : (stepTraced p i).1.1.registerFile = _ :=
    ControlSAxi.registerFile_step h.running.2 (FirHwRtl.aReset_controlIn hrst)
  rw [hstep]
  exact Mealy.invariant_run RegisterFile.access (I := fun f => f.tlastDnum = 0)
    (fun f op hf hop => (hop f).trans hf) h.register hkeeps

end Steps

namespace Startup

variable (u : Startup)

theorem running_start : Running u.start := u.powerOn.running u.resets u.idle

theorem unprogrammed_start : Unprogrammed u.start := by
  refine ⟨u.running_start, ?_, by simp [StartupRun.start, CallTrace.calls, empty]⟩
  simp [StartupRun.start, FirHwRtl.registerFile, ControlSAxi.registerFile, FirHwRtl.step, ControlSAxi.step,
    ControlSAxi.nextReg, FirHwRtl.controlIn, u.resets]

theorem tlastDnum_atInit : ∀ args ∈ u.atInit.2.calls, args.tlastDnum = 0 := by
  obtain ⟨ops, hops, hkeeps⟩ :=
    accesses_firInit u.driver (Mealy.runState RegisterFile.access u.start.1.registerFile u.earlier)
  obtain ⟨op, hop⟩ := committed_of_ne_nil u.stores
  have hinits := u.inits
  rw [hops, StartupRun.init, Mealy.collect_concat, hop, ← List.append_assoc] at hinits
  have hbefore := (List.append_inj' hinits rfl).1
  have hrun : Unprogrammed (Mealy.runState stepTraced u.start u.before) := by
    apply Mealy.invariant_run_of_seen stepTraced committed (P := fun i => i.apRstN = true) (Q := KeepsTlastDnum)
      (fun _ _ h hi hseen => h.step hi hseen) u.unprogrammed_start
    · exact fun i hi => u.runs i (List.mem_append_left _ hi)
    · rw [hbefore]
      intro op hop
      rcases List.mem_append.mp hop with hop | hop
      · exact keepsTlastDnum_of_isRead (u.reads op hop)
      · exact hkeeps op hop
  rw [StartupRun.atInit, StartupRun.init, Mealy.runState_concat]
  exact hrun.calls_step

theorem running_atInit : Running u.atInit :=
  Mealy.invariant_run stepTraced (I := Running) (fun _ _ h hi => h.step hi) u.running_start u.runs

theorem programmedFrom_atInit : ProgrammedFrom u.atInit.2.calls.length u.atInit :=
  programmedFrom_firInit u.running_start u.runs u.driver u.inits

theorem programmedFrom_final : ProgrammedFrom u.atInit.2.calls.length u.final := by
  rw [StartupRun.final, Mealy.runState_append]
  exact u.programmedFrom_atInit.run u.stays u.quiet

end Startup

/-! ### The stream -/

/-- What decides how many beats a call emits and which of them are last. -/
def frame (args : FirHwArgs) : BitVec 16 × BitVec 3 := (args.tlastDnum, args.smplRdNum)

theorem frames_run {p : FirHwRtl × CallTrace FirHwArgs AxisType} (h : Running p) {is : List FirCycle}
    (his : ∀ i ∈ is, i.apRstN = true) :
    p.2.calls.map frame <+: (Mealy.runState stepTraced p is).2.calls.map frame := by
  have hlog := Mealy.log_run stepTraced (fun p i => (p.1.event i).begins.toList.map frame)
    (fun p => p.2.calls.map frame) (I := Running) (fun _ _ h hi => h.step hi) ?_ h his
  · rw [hlog]
    exact List.prefix_append _ _
  · intro p i h _
    apply CallTrace.map_calls_record frame (FirHwRtl.callMachine.sequential h.1)
    intro args
    obtain ⟨htlast, hsmpl, _⟩ := FirHwRtl.nextArgs_fields (s := p.1) (i := i) args
    exact Prod.ext htlast hsmpl

theorem length_outputs_congr {s s' : FirHwState} (h : s.decCnt = s'.decCnt) {as bs : List FirHwArgs}
    (hab : as.map FirHwArgs.smplRdNum = bs.map FirHwArgs.smplRdNum) :
    (Mealy.outputs firHw s as).flatten.length = (Mealy.outputs firHw s' bs).flatten.length := by
  induction as generalizing bs s s' with
  | nil =>
    rw [List.map_nil, eq_comm, List.map_eq_nil_iff] at hab
    rw [hab, Mealy.outputs_nil, Mealy.outputs_nil]
  | cons a as ih =>
    cases bs with
    | nil => simp at hab
    | cons b bs =>
      obtain ⟨hhead, htail⟩ := List.cons.inj hab
      have hemits : Emits s a ↔ Emits s' b := by rw [Emits, Emits, h, hhead]
      have hcall : (firHw s a).2.length = (firHw s' b).2.length ∧ (firHw s a).1.decCnt = (firHw s' b).1.decCnt := by
        rcases firHw_cases s a with ⟨he, hout, _, hdec⟩ | ⟨he, hout, _, hdec⟩ <;>
        rcases firHw_cases s' b with ⟨he', hout', _, hdec'⟩ | ⟨he', hout', _, hdec'⟩
        · exact ⟨by simp only [hout, hout', List.length_cons], by rw [hdec, hdec']⟩
        · exact absurd (hemits.mp he) he'
        · exact absurd (hemits.mpr he') he
        · exact ⟨by rw [hout, hout'], by rw [hdec, hdec', h]⟩
      rw [Mealy.outputs_cons, Mealy.outputs_cons, List.flatten_cons, List.flatten_cons, List.length_append,
        List.length_append, hcall.1, ih hcall.2 htail]

theorem length_firHw_le (s : FirHwState) (args : FirHwArgs) : (firHw s args).2.length ≤ 2 := by
  rcases firHw_cases s args with ⟨_, hout, _, _⟩ | ⟨_, hout, _, _⟩ <;> rw [hout]
  · exact le_refl 2
  · exact Nat.zero_le 2

/-- The calls of a run: fewer than 256 beats without a packet length, then calls as `FIR_init` programs them. -/
theorem Startup.calls_eq (u : Startup) : ∃ as bs, u.calls = as ++ bs ∧ as.length = u.atInit.2.calls.length ∧
    (∀ args ∈ as, args.tlastDnum = 0) ∧ (∀ args ∈ bs, FirHwRtl.Programmed args) ∧
    (emitted firHw FirHwState.initial as).length < 256 ∧
    u.atInit.2.delivered.length ≤ (emitted firHw FirHwState.initial as).length := by
  have hframes : u.atInit.2.calls.map frame <+: u.calls.map frame := by
    rw [StartupRun.calls, StartupRun.final, Mealy.runState_append]
    exact frames_run u.running_atInit u.stays
  have htake := List.prefix_iff_eq_take.mp hframes
  rw [List.length_map, ← List.map_take] at htake
  have hle : u.atInit.2.calls.length ≤ u.calls.length := u.programmedFrom_final.length
  have hsmpl := congrArg (List.map Prod.snd) htake
  rw [List.map_map, List.map_map] at hsmpl
  have hcongr := length_outputs_congr (s := FirHwState.initial) rfl hsmpl
  have hagrees := u.running_atInit.1.agrees
  have hproduced := hagrees.produced.length_le
  refine ⟨u.calls.take u.atInit.2.calls.length, u.calls.drop u.atInit.2.calls.length,
    (List.take_append_drop _ _).symm,
    List.length_take_of_le hle, ?_, u.programmedFrom_final.calls, ?_, ?_⟩
  · intro args hargs
    have hmem : frame args ∈ u.atInit.2.calls.map frame := htake ▸ List.mem_map_of_mem hargs
    obtain ⟨args', hargs', heq⟩ := List.mem_map.mp hmem
    rw [← u.tlastDnum_atInit args' hargs']
    exact (congrArg Prod.fst heq).symm
  · have hemitted := hagrees.length_emitted_le length_firHw_le
    have hwithheld := u.withheld
    unfold emitted at hemitted ⊢
    omega
  · unfold emitted at hproduced ⊢
    exact hproduced.trans_eq hcongr

theorem prefix_emitted (u : Startup) : u.delivered <+: emitted firHw FirHwState.initial u.calls :=
  u.programmedFrom_final.running.1.agrees.produced

theorem last_delivered_iff (u : Startup) {k : ℕ} (hk : k < u.delivered.length) :
    u.delivered[k].last = true ↔ 256 ∣ k + 1 := by
  obtain ⟨as, bs, hcalls, _, has, hbs, hlt, -⟩ := u.calls_eq
  have hpre := prefix_emitted u
  rw [hcalls, emitted] at hpre
  have hlimit : (256 : BitVec 16).toNat = 256 := by decide
  have hflags := (firHw_counts 0).run_set_limit (firHw_counts 256) (s := FirHwState.initial) rfl has
    (fun args hargs => (hbs args hargs).tlastDnum) (hlt.trans_eq hlimit.symm)
  have hperiod : PacketCounter.period (256 : BitVec 16) = 256 :=
    (PacketCounter.period_of_ne_zero (by decide)).trans hlimit
  rw [hpre.getElem hk, PacketCounter.last_getElem_iff_of_zero hflags, hperiod]

/-! ### The pairs of a packet -/

/-- The pairs of a packet of the stream, each with the number of its call. -/
def packetPairs (calls : List FirHwArgs) (packet : ℕ) : List (ℕ × AxisType × AxisType) :=
  ((pairsFrom 0 (Mealy.outputs firHw FirHwState.initial calls)).drop (128 * packet)).take 128

theorem packet_beats {γ : Type*} (f : AxisType → γ) {calls : List FirHwArgs} {seen : List γ}
    (hseen : seen <+: (emitted firHw FirHwState.initial calls).map f) {packet : ℕ}
    (hlen : 256 * packet + 256 ≤ seen.length) :
    (packetPairs calls packet).length = 128 ∧
      (seen.drop (256 * packet)).take 256 = (packetPairs calls packet).flatMap fun p => (beatsOf p).map f := by
  have hflat := flatten_eq_pairs (firHw_outputs_pair calls) 0
  have hlength := hseen.length_le
  rw [emitted, hflat, List.length_map, length_flatMap_beatsOf] at hlength
  obtain ⟨rest, hrest⟩ := hseen
  rw [emitted, hflat] at hrest
  set pairs := pairsFrom 0 (Mealy.outputs firHw FirHwState.initial calls) with hpairs
  rw [packetPairs, ← hpairs]
  refine ⟨?_, ?_⟩
  · rw [List.length_take, List.length_drop]
    omega
  · have hdouble : 256 * packet = 2 * (128 * packet) := by omega
    have happend : ((seen ++ rest).drop (256 * packet)).take 256 = (seen.drop (256 * packet)).take 256 := by
      rw [List.drop_append_of_le_length (by omega), List.take_append_of_le_length]
      rw [List.length_drop]
      omega
    rw [← happend, hrest, hdouble, ← List.map_drop, ← List.map_take, drop_flatMap_beatsOf,
      show 256 = 2 * 128 from rfl, take_flatMap_beatsOf, List.map_flatMap]

theorem mem_packetPairs {calls : List FirHwArgs} {packet : ℕ} {p : ℕ × AxisType × AxisType}
    (hp : p ∈ packetPairs calls packet) :
    p.1 < calls.length ∧ (Mealy.outputs firHw FirHwState.initial calls)[p.1]? = some [p.2.1, p.2.2] := by
  have hout := (mem_pairsFrom (List.mem_of_mem_drop (List.mem_of_mem_take hp))).2
  exact ⟨by simpa using (List.getElem?_eq_some_iff.mp hout).1, hout⟩

/-- The pairs of the calls before `FIR_init` has taken effect are all in the first packet. -/
theorem late_of_drop (u : Startup) {m : ℕ} (hm : 128 ≤ m) {p : ℕ × AxisType × AxisType}
    (hp : p ∈ (pairsFrom 0 (Mealy.outputs firHw FirHwState.initial u.calls)).drop m) :
    u.atInit.2.calls.length ≤ p.1 := by
  obtain ⟨as, bs, hcalls, hlen, -, -, hlt, -⟩ := u.calls_eq
  have hshort : (pairsFrom 0 (Mealy.outputs firHw FirHwState.initial as)).length ≤ m := by
    rw [emitted, flatten_eq_pairs (firHw_outputs_pair as) 0, length_flatMap_beatsOf] at hlt
    omega
  rw [hcalls, Mealy.outputs_append, pairsFrom_append (firHw_outputs_pair as), Mealy.length_outputs, Nat.zero_add,
    List.drop_append, List.drop_eq_nil_of_le hshort, List.nil_append] at hp
  exact hlen ▸ (mem_pairsFrom (List.mem_of_mem_drop hp)).1

theorem isChain_pairs {calls : List FirHwArgs} {m n : ℕ} (hfilters : FiltersFrom n calls)
    (hlate : ∀ p ∈ (pairsFrom 0 (Mealy.outputs firHw FirHwState.initial calls)).drop m, n ≤ p.1) :
    ((pairsFrom 0 (Mealy.outputs firHw FirHwState.initial calls)).drop m).IsChain fun p q => q.1 = p.1 + 3 := by
  obtain ⟨a, -, hthirds⟩ := hfilters.thirds
  have hchain := (pairsFrom_isChain (k := 0) (e := fun i => emitsPair calls i = true) (firHw_outputs_pair calls)
    (fun i hi => by simp [emitsPair, hi])).2.drop m
  have hsorted := (pairsFrom_sorted 0 (Mealy.outputs firHw FirHwState.initial calls)).drop (i := m)
  have hmem : ∀ p ∈ (pairsFrom 0 (Mealy.outputs firHw FirHwState.initial calls)).drop m,
      p.1 < calls.length ∧ (p.1 - n) % 3 = a := by
    intro p hp
    have hout := (mem_pairsFrom (List.mem_of_mem_drop hp)).2
    have hlt : p.1 < calls.length := by simpa using (List.getElem?_eq_some_iff.mp hout).1
    exact ⟨hlt, (hthirds p.1 hlt (hlate p hp)).mp ((emitsPair_iff hlt).mpr ⟨_, _, hout⟩)⟩
  generalize (pairsFrom 0 (Mealy.outputs firHw FirHwState.initial calls)).drop m = late at *
  rw [List.isChain_iff_getElem] at hchain ⊢
  rw [List.pairwise_iff_getElem] at hsorted
  intro i hi
  have hp : late[i] ∈ late := List.getElem_mem _
  have hq : late[i + 1] ∈ late := List.getElem_mem _
  have hless := hsorted i (i + 1) (Nat.lt_of_succ_lt hi) hi (Nat.lt_succ_self i)
  have hpmod := (hmem _ hp).2
  have hqmod := (hmem _ hq).2
  have hplate := hlate _ hp
  by_contra hne
  -- the call three after the first one would emit in between
  have hbetween := hchain i hi (late[i].1 + 3) (by omega) (by omega)
  apply hbetween
  refine (hthirds _ ?_ (by omega)).mpr (by omega)
  exact Nat.lt_trans (by omega) (hmem _ hq).1

theorem isChain_late (u : Startup) {m : ℕ} (hm : 128 ≤ m) :
    ((pairsFrom 0 (Mealy.outputs firHw FirHwState.initial u.calls)).drop m).IsChain fun p q => q.1 = p.1 + 3 :=
  isChain_pairs (filtersFrom_of_programmed u.programmedFrom_final.calls) fun _ => late_of_drop u hm

theorem filtered_packet (u : Startup) {packet : ℕ} (hpacket : 1 ≤ packet) :
    ((packetPairs u.calls packet).IsChain fun p q => q.1 = p.1 + 3) ∧
      ∀ p ∈ packetPairs u.calls packet,
        p.2.1.data = filterWord FirHwArgs.inputL u.calls p.1 ∧
          p.2.2.data = filterWord FirHwArgs.inputR u.calls p.1 := by
  have hfilters := filtersFrom_of_programmed u.programmedFrom_final.calls
  have hm : 128 ≤ 128 * packet := by omega
  refine ⟨(isChain_late u hm).take 128, fun p hp => ?_⟩
  obtain ⟨hn, hout⟩ := mem_packetPairs hp
  rcases hfilters.words p.1 hn (late_of_drop u hm (List.mem_of_mem_take hp)) with hnone | ⟨l, r, hout', hl, hr, -⟩
  · exact absurd (hnone.symm.trans hout) (by simp)
  · have hpair : [l, r] = [p.2.1, p.2.2] := Option.some.inj (hout'.symm.trans hout)
    cases p
    cases hpair
    exact ⟨hl, hr⟩

/-- **The stream from the reset on.** A beat that has left the core is the last of its packet just if its number
is a multiple of 256. Every packet is made of 128 pairs, each what one call emits; from the second packet on
they are the filter's words for every third pair of samples. -/
theorem startup_framed (u : Startup) :
    (∀ k, ∀ hk : k < u.delivered.length, u.delivered[k].last = true ↔ 256 ∣ k + 1) ∧
    ∀ packet, 256 * packet + 256 ≤ u.delivered.length →
      (packetPairs u.calls packet).length = 128 ∧
      (u.delivered.drop (256 * packet)).take 256 = (packetPairs u.calls packet).flatMap beatsOf ∧
      (∀ p ∈ packetPairs u.calls packet,
        (Mealy.outputs firHw FirHwState.initial u.calls)[p.1]? = some [p.2.1, p.2.2]) ∧
      (1 ≤ packet → ((packetPairs u.calls packet).IsChain fun p q => q.1 = p.1 + 3) ∧
        ∀ p ∈ packetPairs u.calls packet, p.2.1.data = filterWord FirHwArgs.inputL u.calls p.1 ∧
          p.2.2.data = filterWord FirHwArgs.inputR u.calls p.1) := by
  refine ⟨fun k hk => last_delivered_iff u hk, fun packet hlen => ?_⟩
  have hpre := prefix_emitted u
  rw [← List.map_id (emitted firHw FirHwState.initial u.calls)] at hpre
  obtain ⟨hlength, hbeats⟩ := packet_beats id hpre hlen
  simp only [List.map_id] at hbeats
  exact ⟨hlength, hbeats, fun p hp => (mem_packetPairs hp).2, filtered_packet u⟩

/-! ### A processor that stores one word after the other -/

namespace FirHwRtl

/-- The last store of `FIR_init`. -/
def lastStoreCycle : FirCycle := busCycle (storeIn addrTlastDnumData0 256 (-1))

-- The stores are never evaluated.
attribute [local irreducible] initStores

/-- A run in which the processor calls `FIR_init` before any samples come. -/
def shippedRun : StartupRun where
  core := initial
  reset := readyCycle false 0 0
  before := busCycle idleIn :: (initStores.dropLast.flatMap accessCycles ++ [lastStoreCycle])
  lastStore := lastStoreCycle
  after := lastStoreCycle :: sampleRun
  driver := firIp
  earlier := []

theorem initStores_eq : initStores.dropLast ++ [.write addrTlastDnumData0 256 (-1)] = initStores := by
  obtain ⟨ops, hops, -⟩ := accesses_firInit firIp afterReset.1.registerFile
  rw [initStores, hops, List.dropLast_concat]

theorem mem_init_shippedRun {i : FirCycle} (hi : i ∈ shippedRun.init) : ∃ bus, i = busCycle bus := by
  simp only [StartupRun.init, shippedRun, List.mem_append, List.mem_cons, List.mem_flatMap, List.not_mem_nil,
    or_false] at hi
  rcases hi with (rfl | ⟨op, hop, hi⟩ | rfl) | rfl
  · exact ⟨_, rfl⟩
  · obtain ⟨addr, data, strb, rfl, -⟩ := alignedStore_initStores op (List.mem_of_mem_dropLast hop)
    exact ⟨_, List.eq_of_mem_replicate hi⟩
  · exact ⟨_, rfl⟩
  · exact ⟨_, rfl⟩

theorem committed_shippedRun :
    Mealy.collect stepTraced committed shippedRun.start shippedRun.before = initStores.dropLast ∧
      committed (Mealy.runState stepTraced shippedRun.start shippedRun.before) shippedRun.lastStore =
        [.write addrTlastDnumData0 256 (-1)] ∧
      committed shippedRun.atInit shippedRun.lastStore = [] := by
  have hstores : ∀ op ∈ initStores.dropLast, AlignedStore op :=
    fun op hop => alignedStore_initStores op (List.mem_of_mem_dropLast hop)
  obtain ⟨hlog, hidle⟩ := committed_flatMap (p := (stepTraced shippedRun.start (busCycle idleIn)).1) rfl hstores
  have haligned : aligned addrTlastDnumData0 = addrTlastDnumData0 := by decide
  obtain ⟨h1, h2, h3, -⟩ := store_phases hidle 256 (-1) haligned (i := lastStoreCycle) rfl
  have hbefore : shippedRun.before =
      busCycle idleIn :: (initStores.dropLast.flatMap accessCycles ++ [lastStoreCycle]) := rfl
  have hlast : shippedRun.lastStore = lastStoreCycle := rfl
  rw [StartupRun.atInit, StartupRun.init, Mealy.runState_concat, hlast, hbefore, Mealy.runState_cons,
    Mealy.runState_concat, Mealy.collect, committed_idleIn _ rfl, Mealy.collect_concat, hlog, h1]
  refine ⟨?_, h2, h3⟩
  rw [List.nil_append, List.append_nil]

theorem collect_init_shippedRun :
    Mealy.collect stepTraced committed shippedRun.start shippedRun.init = initStores := by
  obtain ⟨hbefore, hlast, -⟩ := committed_shippedRun
  rw [StartupRun.init, Mealy.collect_concat, hbefore, hlast, initStores_eq]

theorem inits_shippedRun : Mealy.collect stepTraced committed shippedRun.start shippedRun.init =
    shippedRun.earlier ++ ((firInit (some shippedRun.driver)).accesses RegisterFile.device
      (Mealy.runState RegisterFile.access shippedRun.start.1.registerFile shippedRun.earlier)).map
        BusAccess.toAccess := by
  have hearlier : shippedRun.earlier = [] := rfl
  have hstart : shippedRun.start = afterReset := rfl
  have hdriver : shippedRun.driver = firIp := rfl
  rw [collect_init_shippedRun, hearlier, hstart, hdriver, Mealy.runState_nil, List.nil_append, initStores]

theorem apRstN_shippedRun : ∀ i ∈ shippedRun.init, i.apRstN = true := by
  intro i hi
  obtain ⟨bus, rfl⟩ := mem_init_shippedRun hi
  rfl

theorem stays_shippedRun : ∀ i ∈ shippedRun.after, i.apRstN = true := by
  intro i hi
  rcases List.mem_cons.mp hi with rfl | hi
  · rfl
  · rw [eq_of_mem_sampleRun hi]
    rfl

theorem quiet_shippedRun : Mealy.collect stepTraced committed shippedRun.atInit shippedRun.after = [] := by
  obtain ⟨-, -, hagain⟩ := committed_shippedRun
  have hafter : shippedRun.after = shippedRun.lastStore :: sampleRun := rfl
  rw [hafter, Mealy.collect, hagain, committed_sampleRun, List.nil_append]

theorem delivered_shippedRun : shippedRun.atInit.2.delivered = [] := by
  apply (initial_powerOn.reset (r := readyCycle false 0 0) rfl rfl).delivered_of_idle apRstN_shippedRun
  intro i hi
  obtain ⟨bus, rfl⟩ := mem_init_shippedRun hi
  rfl

theorem stores_shippedRun :
    committed (Mealy.runState stepTraced shippedRun.start shippedRun.before) shippedRun.lastStore ≠ [] := by
  rw [committed_shippedRun.2.1]
  exact List.cons_ne_nil _ _

theorem reads_shippedRun : ∀ op ∈ shippedRun.earlier, IsRead op := nofun

theorem isRead_shippedRun :
    ∀ op ∈ Mealy.collect stepTraced committed shippedRun.atInit shippedRun.after, IsRead op := by
  rw [quiet_shippedRun]
  exact nofun

theorem withheld_shippedRun : shippedRun.atInit.2.delivered.length < 254 := by
  rw [delivered_shippedRun]
  exact Nat.zero_lt_succ _

/-- The run starts the core up. -/
def shippedStartup : Startup :=
  ⟨shippedRun, initial_powerOn, rfl, rfl, apRstN_shippedRun, stays_shippedRun, inits_shippedRun, stores_shippedRun,
    reads_shippedRun, isRead_shippedRun, withheld_shippedRun⟩

theorem startup_framed_shipped :
    (∀ k, ∀ hk : k < shippedStartup.delivered.length, shippedStartup.delivered[k].last = true ↔ 256 ∣ k + 1) ∧
    ∀ packet, 256 * packet + 256 ≤ shippedStartup.delivered.length →
      (packetPairs shippedStartup.calls packet).length = 128 ∧
      (shippedStartup.delivered.drop (256 * packet)).take 256 =
        (packetPairs shippedStartup.calls packet).flatMap beatsOf ∧
      (∀ p ∈ packetPairs shippedStartup.calls packet,
        (Mealy.outputs firHw FirHwState.initial shippedStartup.calls)[p.1]? = some [p.2.1, p.2.2]) ∧
      (1 ≤ packet → ((packetPairs shippedStartup.calls packet).IsChain fun p q => q.1 = p.1 + 3) ∧
        ∀ p ∈ packetPairs shippedStartup.calls packet,
          p.2.1.data = filterWord FirHwArgs.inputL shippedStartup.calls p.1 ∧
          p.2.2.data = filterWord FirHwArgs.inputR shippedStartup.calls p.1) :=
  startup_framed shippedStartup

end FirHwRtl

end FpgaLabor
