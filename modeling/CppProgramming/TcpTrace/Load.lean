import CppProgramming.TcpTrace.HookFuncLib

/-!
# Loading and unloading `tcp_trace`

`tcp_trace_init` and `tcp_trace_exit` of `tcp_trace_main.c` with what they call in
`tcp_trace_conn.c` and `tcp_trace_data.c`: five tables of probes, registered in
three nested chains of `goto`s.

Registering a probe that is registered, or unregistering one that is not, has no
result, so that the functions have one at all says that this never happens.
-/

namespace CppProgramming.TcpTrace

open CppProgramming.Lib TracepointProbeContext

/-! ### The code -/

/-- `kprobe_num` and `kretprobe_num` of the two files. -/
structure Sizes where
  connKprobeNum : ℕ
  connKretprobeNum : ℕ
  dataKprobeNum : ℕ
  dataKretprobeNum : ℕ

/-- The module: `sched_probes` and what it has registered. -/
structure Module where
  schedProbes : TracepointProbeContext
  ledger : Ledger Probe

variable (answers : ℕ → Answer) (n : Sizes)

/-- `tcp_trace_conn_init` behind the search for the tracepoints. -/
def connRegister (ctx : TracepointProbeContext) (s : Ledger Probe) :
    Option (ℤ × Ledger Probe) := do
  let (ret, s) ← registerProbes answers ctx s
  if ret < 0 then some (ret, s)
  else
    let (ret, s) ← kprobesInit answers .conn n.connKprobeNum s
    if ret < 0 then
      let s ← unregisterProbes ctx s
      some (ret, s)
    else
      let (ret, s) ← kretprobesInit answers .conn n.connKretprobeNum s
      if ret < 0 then
        let s ← kprobesExit .conn n.connKprobeNum s
        let s ← unregisterProbes ctx s
        some (ret, s)
      else some (0, s)

def tcpTraceConnInit (tracepoints : List Tracepoint) (m : Module) : Option (ℤ × Module) :=
  let found := m.schedProbes.findTracepoints tracepoints
  if found.1 < 0 then some (found.1, { m with schedProbes := found.2 })
  else (connRegister answers n found.2 m.ledger).map fun (ret, s) => (ret, ⟨found.2, s⟩)

def tcpTraceConnExit (m : Module) : Option Module := do
  let s ← unregisterProbes m.schedProbes m.ledger
  let s ← kprobesExit .conn n.connKprobeNum s
  let s ← kretprobesExit .conn n.connKretprobeNum s
  some { m with ledger := s }

def tcpTraceDataInit (s : Ledger Probe) : Option (ℤ × Ledger Probe) := do
  let (ret, s) ← kprobesInit answers .data n.dataKprobeNum s
  if ret < 0 then some (ret, s)
  else
    let (ret, s) ← kretprobesInit answers .data n.dataKretprobeNum s
    if ret < 0 then
      let s ← kprobesExit .data n.dataKprobeNum s
      some (ret, s)
    else some (0, s)

def tcpTraceDataExit (s : Ledger Probe) : Option (Ledger Probe) := do
  let s ← kprobesExit .data n.dataKprobeNum s
  kretprobesExit .data n.dataKretprobeNum s

def tcpTraceInit (tracepoints : List Tracepoint) (m : Module) : Option (ℤ × Module) := do
  let (ret, m) ← tcpTraceConnInit answers n tracepoints m
  if ret < 0 then some (ret, m)
  else
    let (ret, s) ← tcpTraceDataInit answers n m.ledger
    let m := { m with ledger := s }
    if ret < 0 then
      let m ← tcpTraceConnExit n m
      some (ret, m)
    else some (0, m)

def tcpTraceExit (m : Module) : Option Module := do
  let m ← tcpTraceConnExit n m
  let s ← tcpTraceDataExit n m.ledger
  some { m with ledger := s }

/-! ### The chains of `goto`s -/

theorem connRegister_eq (ctx : TracepointProbeContext) :
    connRegister answers n ctx =
      initThen (initThen (registerProbes answers ctx) (kprobesInit answers .conn n.connKprobeNum)
          (unregisterProbes ctx))
        (kretprobesInit answers .conn n.connKretprobeNum)
        fun s => (kprobesExit .conn n.connKprobeNum s).bind (unregisterProbes ctx) := by
  funext s
  rw [connRegister, initThen, initThen]
  cases registerProbes answers ctx s with
  | none => rfl
  | some res =>
    obtain ⟨ret, s⟩ := res
    simp only [Option.bind_eq_bind, Option.bind_some]
    by_cases hret : ret < 0
    · simp only [hret, if_true, Option.bind_some]
    · simp only [hret, if_false]
      cases kprobesInit answers .conn n.connKprobeNum s with
      | none => rfl
      | some res =>
        obtain ⟨ret, s⟩ := res
        simp only [Option.bind_some]
        by_cases hret : ret < 0
        · simp only [hret, if_true]
          cases unregisterProbes ctx s <;> simp [hret]
        · simp only [hret, if_false, lt_irrefl, Option.bind_some, Option.bind_assoc]

theorem tcpTraceDataInit_eq :
    tcpTraceDataInit answers n =
      initThen (kprobesInit answers .data n.dataKprobeNum)
        (kretprobesInit answers .data n.dataKretprobeNum) (kprobesExit .data n.dataKprobeNum) := rfl

/-- The probes of `tcp_trace_conn.c`. -/
def connProbes (ctx : TracepointProbeContext) : Finset Probe :=
  tracepointProbes ctx ∪ tableProbes (.kprobe .conn) n.connKprobeNum ∪
    tableProbes (.kretprobe .conn) n.connKretprobeNum

/-- The probes of `tcp_trace_data.c`. -/
def dataProbes : Finset Probe :=
  tableProbes (.kprobe .data) n.dataKprobeNum ∪ tableProbes (.kretprobe .data) n.dataKretprobeNum

theorem disjoint_tableProbes {kps kps' : ℕ → Probe} (h : ∀ i j, kps i ≠ kps' j) (k l : ℕ) :
    Disjoint (tableProbes kps k) (tableProbes kps' l) := by
  rw [Finset.disjoint_left]
  intro p hp hp'
  obtain ⟨i, -, rfl⟩ := List.mem_map.mp (List.mem_toFinset.mp hp)
  obtain ⟨j, -, hj⟩ := List.mem_map.mp (List.mem_toFinset.mp hp')
  exact h i j hj.symm

theorem disjoint_tracepointProbes (ctx : TracepointProbeContext) {kps : ℕ → Probe}
    (h : ∀ i j tp probe priv, .tracepoint i tp probe priv ≠ kps j) (k : ℕ) :
    Disjoint (tracepointProbes ctx) (tableProbes kps k) := by
  rw [Finset.disjoint_left]
  intro p hp hp'
  obtain ⟨entry, -, rfl⟩ := List.mem_map.mp (List.mem_toFinset.mp hp)
  obtain ⟨j, -, hj⟩ := List.mem_map.mp (List.mem_toFinset.mp hp')
  exact h _ j _ _ _ hj.symm

theorem disjoint_conn_data (ctx : TracepointProbeContext) :
    Disjoint (connProbes n ctx) (dataProbes n) := by
  refine Finset.disjoint_union_left.mpr ⟨Finset.disjoint_union_left.mpr ⟨?_, ?_⟩, ?_⟩
  · exact Finset.disjoint_union_right.mpr
      ⟨disjoint_tracepointProbes ctx (by simp) _, disjoint_tracepointProbes ctx (by simp) _⟩
  · exact Finset.disjoint_union_right.mpr
      ⟨disjoint_tableProbes (by simp) .., disjoint_tableProbes (by simp) ..⟩
  · exact Finset.disjoint_union_right.mpr
      ⟨disjoint_tableProbes (by simp) .., disjoint_tableProbes (by simp) ..⟩

variable {ctx : TracepointProbeContext}

theorem acquires_connRegister (h : ∀ entry ∈ ctx.entries, entry.tp.isSome) :
    Acquires Ledger.held (connProbes n ctx) (connRegister answers n ctx) := by
  have hdisj : Disjoint (tracepointProbes ctx) (tableProbes (.kprobe .conn) n.connKprobeNum) :=
    disjoint_tracepointProbes ctx (by simp) _
  have hundo := (releases_unregisterTable (kprobe_injective .conn) n.connKprobeNum).andThen
    (releases_unregisterProbes h) hdisj.symm
  rw [Finset.union_comm] at hundo
  rw [connRegister_eq]
  refine .initThen (.initThen (acquires_registerProbes answers h)
    (acquires_registerTable answers (kprobe_injective .conn) _) (releases_unregisterProbes h) hdisj)
    (acquires_registerTable answers (kretprobe_injective .conn) _) hundo ?_
  exact Finset.disjoint_union_left.mpr
    ⟨disjoint_tracepointProbes ctx (by simp) _, disjoint_tableProbes (by simp) ..⟩

theorem acquires_tcpTraceDataInit :
    Acquires Ledger.held (dataProbes n) (tcpTraceDataInit answers n) := by
  rw [tcpTraceDataInit_eq]
  exact .initThen (acquires_registerTable answers (kprobe_injective .data) _)
    (acquires_registerTable answers (kretprobe_injective .data) _)
    (releases_unregisterTable (kprobe_injective .data) _) (disjoint_tableProbes (by simp) ..)

theorem releases_tcpTraceDataExit :
    Releases Ledger.held (dataProbes n) (tcpTraceDataExit n) :=
  (releases_unregisterTable (kprobe_injective .data) _).andThen
    (releases_unregisterTable (kretprobe_injective .data) _) (disjoint_tableProbes (by simp) ..)

theorem tcpTraceConnExit_spec {m : Module} (h : ∀ entry ∈ m.schedProbes.entries, entry.tp.isSome)
    (hheld : connProbes n m.schedProbes ⊆ m.ledger.held) :
    ∃ s, tcpTraceConnExit n m = some { m with ledger := s } ∧
      s.held = m.ledger.held \ connProbes n m.schedProbes := by
  have hrel := ((releases_unregisterProbes h).andThen
    (releases_unregisterTable (kprobe_injective .conn) n.connKprobeNum)
    (disjoint_tracepointProbes _ (by simp) _)).andThen
    (releases_unregisterTable (kretprobe_injective .conn) n.connKretprobeNum)
    (Finset.disjoint_union_left.mpr
      ⟨disjoint_tracepointProbes _ (by simp) _, disjoint_tableProbes (by simp) ..⟩)
  obtain ⟨s, hs, hsheld⟩ := hrel m.ledger hheld
  refine ⟨s, ?_, hsheld⟩
  obtain ⟨s₂, hs₂, h₃⟩ := Option.bind_eq_some_iff.mp hs
  obtain ⟨s₁, h₁, h₂⟩ := Option.bind_eq_some_iff.mp hs₂
  simp only [tcpTraceConnExit, kprobesExit, kretprobesExit, h₁, h₂, h₃, Option.bind_eq_bind,
    Option.bind_some]

/-! ### All or nothing -/

/-- The module as it is loaded, with the table `ctx` of tracepoints. -/
def loaded (ctx : TracepointProbeContext) : Module := ⟨ctx, ⟨∅, 0⟩⟩

/-- Every probe of every table is registered, the tracepoint probes with a tracepoint of
the name that the table gives. -/
structure AllRegistered (n : Sizes) (ctx : TracepointProbeContext) (held : Finset Probe) : Prop where
  tracepoints : ∀ i entry, ctx.entries[i]? = some entry →
    ∃ tp, tp.name = entry.name ∧ .tracepoint i tp entry.probe entry.priv ∈ held
  connKprobes : ∀ i < n.connKprobeNum, .kprobe .conn i ∈ held
  connKretprobes : ∀ i < n.connKretprobeNum, .kretprobe .conn i ∈ held
  dataKprobes : ∀ i < n.dataKprobeNum, .kprobe .data i ∈ held
  dataKretprobes : ∀ i < n.dataKretprobeNum, .kretprobe .data i ∈ held

theorem allRegistered_of_held {ctx' : TracepointProbeContext} (hfound : Found ctx.entries ctx'.entries)
    (h : ∀ entry ∈ ctx'.entries, entry.tp.isSome) :
    AllRegistered n ctx (connProbes n ctx' ∪ dataProbes n) := by
  refine ⟨fun i entry hentry => ?_, fun i hi => ?_, fun i hi => ?_, fun i hi => ?_, fun i hi => ?_⟩
  · obtain ⟨hi, rfl⟩ := List.getElem?_eq_some_iff.mp hentry
    have hi' : i < ctx'.entries.length := hfound.length_eq ▸ hi
    obtain ⟨-, hprobe, hpriv, hname⟩ := hfound.get hi hi'
    obtain ⟨tp, htp⟩ := Option.isSome_iff_exists.mp (h _ (List.getElem_mem hi'))
    have hmem : (ctx'.entries[i], i) ∈ ctx'.entries.zipIdx :=
      List.mk_mem_zipIdx_iff_getElem?.mpr (List.getElem?_eq_getElem hi')
    have hprobeOf : probeOf (ctx'.entries[i], i) =
        .tracepoint i tp ctx.entries[i].probe ctx.entries[i].priv := by
      rw [List.get_eq_getElem, List.get_eq_getElem] at hprobe hpriv
      rw [← hprobe, ← hpriv, probeOf, htp]
      rfl
    refine ⟨tp, hname tp htp, ?_⟩
    refine Finset.mem_union_left _ (Finset.mem_union_left _ (Finset.mem_union_left _ ?_))
    exact List.mem_toFinset.mpr (List.mem_map.mpr ⟨_, hmem, hprobeOf⟩)
  all_goals simp [connProbes, dataProbes, mem_tableProbes hi]

theorem tcpTraceExit_spec {m : Module} (h : ∀ entry ∈ m.schedProbes.entries, entry.tp.isSome)
    (hheld : m.ledger.held = connProbes n m.schedProbes ∪ dataProbes n) :
    ∃ m', tcpTraceExit n m = some m' ∧ m'.ledger.held = ∅ := by
  obtain ⟨s₁, heq₁, hs₁⟩ := tcpTraceConnExit_spec n h (hheld ▸ Finset.subset_union_left)
  have hdata : s₁.held = dataProbes n := by
    rw [hs₁, hheld, Finset.union_sdiff_left, Finset.sdiff_eq_self_iff_disjoint]
    exact (disjoint_conn_data n m.schedProbes).symm
  obtain ⟨s₂, heq₂, hs₂⟩ := releases_tcpTraceDataExit n s₁ hdata.ge
  refine ⟨⟨m.schedProbes, s₂⟩, ?_, ?_⟩
  · simp only [tcpTraceExit, heq₁, heq₂, Option.bind_eq_bind, Option.bind_some]
  · rw [hs₂, hdata, Finset.sdiff_self]

/-- **Loading and unloading is all or nothing.**  Whatever the tables, the kernel's
tracepoints and the outcome of each registration are: `tcp_trace_init` returns `0` with
every probe registered, and then `tcp_trace_exit` leaves none, or it returns an error with
none registered.  All on the way has a result, so no probe is registered twice or
unregistered while it is not registered. -/
theorem tcp_trace_all_or_nothing (tracepoints : List Tracepoint) (ctx : TracepointProbeContext) :
    ∃ ret m, tcpTraceInit answers n tracepoints (loaded ctx) = some (ret, m) ∧
      ((ret = 0 ∧ AllRegistered n ctx m.ledger.held ∧
          ∃ m', tcpTraceExit n m = some m' ∧ m'.ledger.held = ∅) ∨
        (ret < 0 ∧ m.ledger.held = ∅)) := by
  obtain ⟨hret, hfound, hsome⟩ := findTracepoints_spec tracepoints ctx
  generalize hctx : ctx.findTracepoints tracepoints = found at hret hfound hsome
  have hconn : tcpTraceConnInit answers n tracepoints (loaded ctx) =
      if found.1 < 0 then some (found.1, ⟨found.2, ⟨∅, 0⟩⟩)
      else (connRegister answers n found.2 ⟨∅, 0⟩).map fun (ret, s) => (ret, ⟨found.2, s⟩) := by
    rw [← hctx]
    rfl
  rw [tcpTraceInit, hconn]
  rcases hret with hret | hret
  · have hall := hsome hret
    obtain ⟨ret₁, s₁, heq₁, hcase₁⟩ := acquires_connRegister answers n hall ⟨∅, 0⟩ (by simp)
    rw [hret, if_neg (lt_irrefl 0), heq₁, Option.map_some]
    simp only [Option.bind_eq_bind, Option.bind_some]
    rcases hcase₁ with ⟨rfl, hs₁⟩ | ⟨hneg, hs₁⟩
    · have hs₁ : s₁.held = connProbes n found.2 := hs₁.trans (Finset.empty_union _)
      obtain ⟨ret₂, s₂, heq₂, hcase₂⟩ := acquires_tcpTraceDataInit answers n s₁
        (hs₁ ▸ (disjoint_conn_data n found.2).symm)
      rw [if_neg (lt_irrefl 0), heq₂, Option.bind_some]
      rcases hcase₂ with ⟨rfl, hs₂⟩ | ⟨hneg, hs₂⟩
      · rw [hs₁] at hs₂
        refine ⟨0, ⟨found.2, s₂⟩, if_neg (lt_irrefl 0), Or.inl ⟨rfl, ?_, ?_⟩⟩
        · rw [hs₂]
          exact allRegistered_of_held n hfound hall
        · exact tcpTraceExit_spec n hall hs₂
      · obtain ⟨s₃, heq₃, hs₃⟩ := tcpTraceConnExit_spec n (m := ⟨found.2, s₂⟩) hall
          (hs₂.trans hs₁).ge
        refine ⟨ret₂, ⟨found.2, s₃⟩, ?_, Or.inr ⟨hneg, ?_⟩⟩
        · rw [if_pos hneg, heq₃, Option.bind_some]
        · rw [hs₃, hs₂, hs₁, Finset.sdiff_self]
    · exact ⟨ret₁, _, if_pos hneg, Or.inr ⟨hneg, hs₁⟩⟩
  · exact ⟨-1, _, by rw [hret]; rfl, Or.inr ⟨by decide, rfl⟩⟩

end CppProgramming.TcpTrace
