import CppProgramming.TcpTrace.HookFuncLib

/-!
# Loading `need_resched_display`

`need_resched_display_init` of `need_resched_display_main.c` with the module's copy of
`hook_func_lib.c`.  The copy differs from that of `tcp_trace` in one function: here
`tracepoint_probe_context_register_probes` goes on when a registration fails, and returns
`0` all the same.  So when a later stage fails, `tracepoint_probe_context_unregister_probes`
is called on a table of which any part may be registered.

A tracepoint holds one probe for a function and its data: to register it again is an error,
and to unregister one that is not there is an error that nobody looks at.  Kprobes and
kretprobes are registered once and unregistered while they are registered, or there is no
result.
-/

namespace CppProgramming.NeedResched

open CppProgramming.Lib CppProgramming.TcpTrace TracepointProbeContext

/-! ### The code -/

inductive Probe
  | tracepoint (tp : Tracepoint) (probe priv : ℕ)
  | kprobe (i : ℕ)
  | kretprobe (i : ℕ)
deriving DecidableEq

/-- `kprobe_num` and `kretprobe_num`. -/
structure Sizes where
  kprobeNum : ℕ
  kretprobeNum : ℕ

structure Module where
  schedProbes : TracepointProbeContext
  ledger : Ledger Probe

def EEXIST : ℤ := 17

variable (answers : ℕ → Answer) (n : Sizes)

/-- Registering at `NULL` has no result. -/
def tracepointProbeRegister (entry : TracepointProbeEntry) (s : Ledger Probe) :
    Option (ℤ × Ledger Probe) := do
  let tp ← entry.tp
  let probe := Probe.tracepoint tp entry.probe entry.priv
  if probe ∈ s.held then some (-EEXIST, s)
  else s.acquire answers probe

def tracepointProbeUnregister (entry : TracepointProbeEntry) (s : Ledger Probe) :
    Option (Ledger Probe) := do
  let tp ← entry.tp
  some { s with held := s.held.erase (.tracepoint tp entry.probe entry.priv) }

/-- `tracepoint_probe_context_register_probes` -/
def registerProbes (ctx : TracepointProbeContext) (s : Ledger Probe) : Option (ℤ × Ledger Probe) :=
  (tryAll (tracepointProbeRegister answers) ctx.entries s).map ((0 : ℤ), ·)

/-- `tracepoint_probe_context_unregister_probes` -/
def unregisterProbes (ctx : TracepointProbeContext) : Ledger Probe → Option (Ledger Probe) :=
  releaseAll tracepointProbeUnregister ctx.entries

/-- The common text of `kprobes_init` and `kretprobes_init`: the structures `kps[i]`. -/
def registerTable (kps : ℕ → Probe) (num : ℕ) : Ledger Probe → Option (ℤ × Ledger Probe) :=
  acquireAll (fun i => Ledger.acquire answers (kps i)) (fun i => Ledger.release (kps i)) (· < 0) []
    (List.range num)

def kprobesInit (num : ℕ) : Ledger Probe → Option (ℤ × Ledger Probe) :=
  registerTable answers .kprobe num

def kprobesExit (num : ℕ) : Ledger Probe → Option (Ledger Probe) :=
  releaseAll (fun i => Ledger.release (.kprobe i)) (List.range num).reverse

def kretprobesInit (num : ℕ) : Ledger Probe → Option (ℤ × Ledger Probe) :=
  registerTable answers .kretprobe num

/-- `need_resched_display_init` behind the search for the tracepoints. -/
def register (ctx : TracepointProbeContext) (s : Ledger Probe) : Option (ℤ × Ledger Probe) := do
  let (ret, s) ← registerProbes answers ctx s
  if ret < 0 then some (ret, s)
  else
    let (ret, s) ← kprobesInit answers n.kprobeNum s
    if ret < 0 then
      let s ← unregisterProbes ctx s
      some (ret, s)
    else
      let (ret, s) ← kretprobesInit answers n.kretprobeNum s
      if ret < 0 then
        let s ← kprobesExit n.kprobeNum s
        let s ← unregisterProbes ctx s
        some (ret, s)
      else some (0, s)

def needReschedDisplayInit (tracepoints : List Tracepoint) (m : Module) : Option (ℤ × Module) :=
  let found := m.schedProbes.findTracepoints tracepoints
  if found.1 < 0 then some (found.1, { m with schedProbes := found.2 })
  else (register answers n found.2 m.ledger).map fun (ret, s) => (ret, ⟨found.2, s⟩)

/-- The module before its `init`: nothing is registered. -/
def loaded (ctx : TracepointProbeContext) : Module := ⟨ctx, ⟨∅, 0⟩⟩

/-! ### The two labels -/

theorem register_eq (ctx : TracepointProbeContext) (s : Ledger Probe) :
    register answers n ctx s =
      initThen (fun s => (tryAll (tracepointProbeRegister answers) ctx.entries s).map ((0 : ℤ), ·))
        (initThen (kprobesInit answers n.kprobeNum) (kretprobesInit answers n.kretprobeNum)
          (kprobesExit n.kprobeNum))
        (unregisterProbes ctx) s := by
  rw [register, initThen, registerProbes]
  cases tryAll (tracepointProbeRegister answers) ctx.entries s with
  | none => rfl
  | some s =>
    simp only [Option.map_some, Option.bind_eq_bind, Option.bind_some, lt_irrefl, if_false]
    rw [initThen]
    cases kprobesInit answers n.kprobeNum s with
    | none => rfl
    | some res =>
      obtain ⟨ret, s⟩ := res
      simp only [Option.bind_eq_bind, Option.bind_some]
      by_cases hret : ret < 0
      · simp only [hret, if_true, Option.bind_some]
      · simp only [hret, if_false]
        cases kretprobesInit answers n.kretprobeNum s with
        | none => rfl
        | some res =>
          obtain ⟨ret, s⟩ := res
          simp only [Option.bind_some]
          by_cases hret : ret < 0
          · simp only [hret, if_true]
            cases kprobesExit n.kprobeNum s <;> simp [hret]
          · simp only [hret, if_false, lt_irrefl, Option.bind_some]

/-! ### What the stages register -/

/-- What an entry registers once it has its tracepoint. -/
def probeOf (entry : TracepointProbeEntry) : Probe :=
  .tracepoint (entry.tp.getD ⟨"", 0⟩) entry.probe entry.priv

def tracepointProbes (ctx : TracepointProbeContext) : Finset Probe := (ctx.entries.map probeOf).toFinset

def tableProbes (kps : ℕ → Probe) (num : ℕ) : Finset Probe := ((List.range num).map kps).toFinset

variable {ctx : TracepointProbeContext} {entry : TracepointProbeEntry}

theorem tries_register (h : entry.tp.isSome) :
    Tries Ledger.held {probeOf entry} fun s =>
      (tracepointProbeRegister answers entry s).map Prod.snd := by
  intro s
  obtain ⟨tp, htp⟩ := Option.isSome_iff_exists.mp h
  have hprobe : probeOf entry = .tracepoint tp entry.probe entry.priv := by rw [probeOf, htp]; rfl
  simp only [tracepointProbeRegister, htp, hprobe, Option.bind_eq_bind, Option.bind_some]
  by_cases hheld : Probe.tracepoint tp entry.probe entry.priv ∈ s.held
  · rw [if_pos hheld]
    exact ⟨s, rfl, subset_rfl, Finset.subset_union_left⟩
  · obtain ⟨ret, s', heq, hcase⟩ := Ledger.acquires answers _ s
      (Finset.disjoint_singleton_left.mpr hheld)
    rw [if_neg hheld, heq]
    refine ⟨s', rfl, ?_⟩
    rcases hcase with ⟨-, hs'⟩ | ⟨-, hs'⟩
    · rw [hs']
      exact ⟨Finset.subset_union_left, subset_rfl⟩
    · rw [hs']
      exact ⟨subset_rfl, Finset.subset_union_left⟩

theorem clears_unregister (h : entry.tp.isSome) :
    Clears Ledger.held {probeOf entry} (tracepointProbeUnregister entry) := by
  intro s
  obtain ⟨tp, htp⟩ := Option.isSome_iff_exists.mp h
  refine ⟨{ s with held := s.held.erase (probeOf entry) }, ?_, Finset.erase_eq ..⟩
  rw [tracepointProbeUnregister, probeOf, htp]
  rfl

theorem tries_registerProbes (h : ∀ entry ∈ ctx.entries, entry.tp.isSome) :
    Tries Ledger.held (tracepointProbes ctx)
      (tryAll (tracepointProbeRegister answers) ctx.entries) :=
  .tryAll fun entry hentry => tries_register answers (h entry hentry)

theorem clears_unregisterProbes (h : ∀ entry ∈ ctx.entries, entry.tp.isSome) :
    Clears Ledger.held (tracepointProbes ctx) (unregisterProbes ctx) :=
  .releaseAll fun entry hentry => clears_unregister (h entry hentry)

theorem acquires_registerTable {kps : ℕ → Probe} (hinj : Function.Injective kps) (num : ℕ) :
    Acquires Ledger.held (tableProbes kps num) (registerTable answers kps num) :=
  .acquireAll (fun _ _ => Ledger.acquires answers _) (fun _ _ => Ledger.releases _)
    (List.nodup_range.map hinj) fun ret hret => by
      rw [decide_eq_true_iff]
      omega

theorem kprobe_injective : Function.Injective Probe.kprobe := fun _ _ h => Probe.kprobe.inj h

theorem kretprobe_injective : Function.Injective Probe.kretprobe :=
  fun _ _ h => Probe.kretprobe.inj h

theorem releases_kprobesExit (num : ℕ) :
    Releases Ledger.held (tableProbes .kprobe num) (kprobesExit num) :=
  .releaseAll_reverse (fun _ _ => Ledger.releases _) (List.nodup_range.map kprobe_injective)

theorem disjoint_tableProbes (k l : ℕ) :
    Disjoint (tableProbes .kprobe k) (tableProbes .kretprobe l) := by
  rw [Finset.disjoint_left]
  intro p hp hq
  simp only [tableProbes, List.mem_toFinset, List.mem_map] at hp hq
  obtain ⟨i, -, rfl⟩ := hp
  obtain ⟨j, -, hj⟩ := hq
  exact absurd hj (by simp)

theorem disjoint_tracepointProbes (ctx : TracepointProbeContext) :
    Disjoint (tracepointProbes ctx)
      (tableProbes .kprobe n.kprobeNum ∪ tableProbes .kretprobe n.kretprobeNum) := by
  rw [Finset.disjoint_left]
  intro p hp hq
  simp only [tracepointProbes, tableProbes, Finset.mem_union, List.mem_toFinset, List.mem_map] at hp hq
  obtain ⟨entry, -, rfl⟩ := hp
  rcases hq with ⟨i, -, hi⟩ | ⟨i, -, hi⟩ <;> exact absurd hi (by simp [probeOf])

/-- **A failed `init` leaves nothing registered.**  Whatever the tables, the kernel's
tracepoints and the outcome of each registration are, `need_resched_display_init` has a
result, `0` with all kprobes and kretprobes registered or a negative one with none of the
module's probes left. -/
theorem need_resched_display_rollback (tracepoints : List Tracepoint)
    (ctx : TracepointProbeContext) :
    ∃ ret m, needReschedDisplayInit answers n tracepoints (loaded ctx) = some (ret, m) ∧
      (ret = 0 ∧ tableProbes .kprobe n.kprobeNum ∪ tableProbes .kretprobe n.kretprobeNum ⊆
          m.ledger.held ∨
        ret < 0 ∧ m.ledger.held = ∅) := by
  obtain ⟨hret, -, hsome⟩ := findTracepoints_spec tracepoints ctx
  rcases hret with hret | hret
  · have hall := hsome hret
    have hnot : ¬ (ctx.findTracepoints tracepoints).1 < 0 := by omega
    have htables : Acquires Ledger.held
        (tableProbes .kprobe n.kprobeNum ∪ tableProbes .kretprobe n.kretprobeNum)
        (initThen (kprobesInit answers n.kprobeNum) (kretprobesInit answers n.kretprobeNum)
          (kprobesExit n.kprobeNum)) :=
      (acquires_registerTable answers kprobe_injective _).initThen
        (acquires_registerTable answers kretprobe_injective _) (releases_kprobesExit _)
        (disjoint_tableProbes _ _)
    obtain ⟨ret, s, heq, hcase⟩ := (tries_registerProbes answers hall).initThen htables
      (clears_unregisterProbes hall) (disjoint_tracepointProbes n _) (s := ⟨∅, 0⟩) (by simp)
    rw [← register_eq] at heq
    refine ⟨ret, ⟨(ctx.findTracepoints tracepoints).2, s⟩, (if_neg hnot).trans ?_, hcase⟩
    rw [show (loaded ctx).ledger = ⟨∅, 0⟩ from rfl, show (loaded ctx).schedProbes = ctx from rfl, heq]
    rfl
  · have hneg : (ctx.findTracepoints tracepoints).1 < 0 := by omega
    exact ⟨_, _, if_pos hneg, Or.inr ⟨hneg, rfl⟩⟩

end CppProgramming.NeedResched
