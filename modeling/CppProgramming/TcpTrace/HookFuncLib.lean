import CppProgramming.Lib.Ledger
import Mathlib.Data.List.Basic

/-!
# `hook_func_lib.c`

Finding the tracepoints of a table by their names, and registering tables of
tracepoint probes, kprobes and kretprobes.

A `Probe` is what the kernel is handed: for a tracepoint the arguments of
`tracepoint_probe_register`, with the position of the entry in its table, which
tells two entries of the same arguments apart and which the kernel is not
handed; for the others the address of the structure, which is a table and a
position in it.
-/

namespace CppProgramming.TcpTrace

open CppProgramming.Lib

/-! ### Tracepoints -/

structure Tracepoint where
  name : String
  addr : ℕ
deriving DecidableEq

/-- `struct tracepoint_probe_entry`; `tp` is `none` where the pointer is `NULL`. -/
structure TracepointProbeEntry where
  name : String
  tp : Option Tracepoint
  probe : ℕ
  priv : ℕ
deriving DecidableEq

structure TracepointProbeContext where
  entries : List TracepointProbeEntry
  foundNum : ℕ
deriving DecidableEq

namespace TracepointProbeContext

def initNum (ctx : TracepointProbeContext) : ℕ := ctx.entries.length

/-- The loop of `tracepoint_lookup`; `found` is `found_num`. -/
def lookupEntries (tp : Tracepoint) :
    List TracepointProbeEntry → ℕ → List TracepointProbeEntry × ℕ
  | [], found => ([], found)
  | entry :: es, found =>
    if entry.tp.isSome ∨ tp.name ≠ entry.name then
      let rest := lookupEntries tp es found
      (entry :: rest.1, rest.2)
    else
      let rest := lookupEntries tp es (found + 1)
      ({ entry with tp := some tp } :: rest.1, rest.2)

/-- `tracepoint_lookup` -/
def lookup (ctx : TracepointProbeContext) (tp : Tracepoint) : TracepointProbeContext :=
  if ctx.foundNum = ctx.initNum then ctx
  else
    let res := lookupEntries tp ctx.entries ctx.foundNum
    { entries := res.1, foundNum := res.2 }

/-- `tracepoint_probe_context_find_tracepoints`, for the tracepoints that
`for_each_kernel_tracepoint` visits. -/
def findTracepoints (tracepoints : List Tracepoint) (ctx : TracepointProbeContext) :
    ℤ × TracepointProbeContext :=
  let ctx := { entries := ctx.entries.map fun entry => { entry with tp := none }, foundNum := 0 }
  let ctx := tracepoints.foldl lookup ctx
  (if ctx.foundNum ≠ ctx.initNum then -1 else 0, ctx)

end TracepointProbeContext

/-! ### Probes -/

/-- The tables of kprobes and kretprobes: each of the two files has its own. -/
inductive Table
  | conn
  | data
deriving DecidableEq

inductive Probe
  | tracepoint (i : ℕ) (tp : Tracepoint) (probe priv : ℕ)
  | kprobe (kps : Table) (i : ℕ)
  | kretprobe (kps : Table) (i : ℕ)
deriving DecidableEq

/-- What an entry registers; there is nothing to register at `NULL`. -/
def TracepointProbeEntry.toProbe (entry : TracepointProbeEntry) (i : ℕ) : Option Probe :=
  entry.tp.map fun tp => .tracepoint i tp entry.probe entry.priv

variable (answers : ℕ → Answer)

def tracepointProbeRegister (entry : TracepointProbeEntry × ℕ) (s : Ledger Probe) :
    Option (ℤ × Ledger Probe) := do
  let probe ← entry.1.toProbe entry.2
  s.acquire answers probe

def tracepointProbeUnregister (entry : TracepointProbeEntry × ℕ) (s : Ledger Probe) :
    Option (Ledger Probe) := do
  let probe ← entry.1.toProbe entry.2
  s.release probe

/-- `tracepoint_probe_context_register_probes` -/
def registerProbes (ctx : TracepointProbeContext) : Ledger Probe → Option (ℤ × Ledger Probe) :=
  acquireAll (tracepointProbeRegister answers) tracepointProbeUnregister (· ≠ 0) []
    ctx.entries.zipIdx

/-- `tracepoint_probe_context_unregister_probes` -/
def unregisterProbes (ctx : TracepointProbeContext) : Ledger Probe → Option (Ledger Probe) :=
  releaseAll tracepointProbeUnregister ctx.entries.zipIdx

/-- The common text of `kprobes_init` and `kretprobes_init`: the structures `kps[i]`. -/
def registerTable (kps : ℕ → Probe) (num : ℕ) : Ledger Probe → Option (ℤ × Ledger Probe) :=
  acquireAll (fun i => Ledger.acquire answers (kps i)) (fun i => Ledger.release (kps i)) (· < 0) []
    (List.range num)

/-- The common text of `kprobes_exit` and `kretprobes_exit`. -/
def unregisterTable (kps : ℕ → Probe) (num : ℕ) : Ledger Probe → Option (Ledger Probe) :=
  releaseAll (fun i => Ledger.release (kps i)) (List.range num).reverse

def kprobesInit (kps : Table) (num : ℕ) : Ledger Probe → Option (ℤ × Ledger Probe) :=
  registerTable answers (.kprobe kps) num

def kprobesExit (kps : Table) (num : ℕ) : Ledger Probe → Option (Ledger Probe) :=
  unregisterTable (.kprobe kps) num

def kretprobesInit (kps : Table) (num : ℕ) : Ledger Probe → Option (ℤ × Ledger Probe) :=
  registerTable answers (.kretprobe kps) num

def kretprobesExit (kps : Table) (num : ℕ) : Ledger Probe → Option (Ledger Probe) :=
  unregisterTable (.kretprobe kps) num

/-! ### What the lookup finds -/

namespace TracepointProbeContext

/-- `es'` are the entries `es`, except that some have got a tracepoint of their name. -/
def Found (es es' : List TracepointProbeEntry) : Prop :=
  List.Forall₂ (fun e e' => e'.name = e.name ∧ e'.probe = e.probe ∧ e'.priv = e.priv ∧
    ∀ tp, e'.tp = some tp → tp.name = e.name) es es'

variable {es es' : List TracepointProbeEntry} {tp : Tracepoint} {found : ℕ}

theorem lookupEntries_found (h : Found es es') (found : ℕ) :
    Found es (lookupEntries tp es' found).1 := by
  induction h generalizing found with
  | nil => exact .nil
  | @cons e e' es es' he _ ih =>
    rw [lookupEntries]
    split
    · exact .cons he (ih found)
    · rename_i hnot
      obtain ⟨-, hname⟩ := not_or.mp hnot
      refine .cons ⟨he.1, he.2.1, he.2.2.1, fun t ht => ?_⟩ (ih (found + 1))
      obtain rfl := Option.some.inj ht
      exact (not_not.mp hname).trans he.1

theorem lookupEntries_count (tp : Tracepoint) (es : List TracepointProbeEntry) : ∀ found,
    (lookupEntries tp es found).2 + es.countP (·.tp.isSome) =
      found + (lookupEntries tp es found).1.countP (·.tp.isSome) := by
  induction es with
  | nil => exact fun found => rfl
  | cons e es ih =>
    intro found
    rw [lookupEntries]
    split
    · have hrest := ih found
      simp only [List.countP_cons]
      omega
    · rename_i hnot
      obtain ⟨hnone, -⟩ := not_or.mp hnot
      have hrest := ih (found + 1)
      simp only [List.countP_cons, hnone, Option.isSome_some, if_true]
      simp only [Bool.false_eq_true, if_false]
      omega

/-- **What a lookup keeps**: the entries are those of the table, and `found_num` counts
those that have their tracepoint. -/
def Inv (es : List TracepointProbeEntry) (ctx : TracepointProbeContext) : Prop :=
  Found es ctx.entries ∧ ctx.foundNum = ctx.entries.countP (·.tp.isSome)

theorem inv_lookup {ctx : TracepointProbeContext} (h : Inv es ctx) (tp : Tracepoint) :
    Inv es (ctx.lookup tp) := by
  rw [lookup]
  split
  · exact h
  · have hcount := lookupEntries_count tp ctx.entries ctx.foundNum
    refine ⟨lookupEntries_found h.1 _, ?_⟩
    rw [h.2] at hcount ⊢
    show (lookupEntries tp ctx.entries _).2 = _
    exact Nat.add_right_cancel (hcount.trans (Nat.add_comm _ _))

theorem inv_findTracepoints (tracepoints : List Tracepoint) (ctx : TracepointProbeContext) :
    Inv ctx.entries (ctx.findTracepoints tracepoints).2 := by
  have hall : ∀ (tps : List Tracepoint) (c : TracepointProbeContext), Inv ctx.entries c →
      Inv ctx.entries (tps.foldl lookup c) := by
    intro tps
    induction tps with
    | nil => exact fun c h => h
    | cons tp tps ih => exact fun c h => ih _ (inv_lookup h tp)
  refine hall tracepoints _ ⟨?_, ?_⟩
  · refine List.forall₂_map_right_iff.mpr (List.forall₂_same.mpr fun e _ => ?_)
    exact ⟨rfl, rfl, rfl, fun _ h => absurd h (by simp)⟩
  · rw [List.countP_map]
    exact (List.countP_eq_zero.mpr fun e _ => by simp).symm

theorem findTracepoints_ret (tracepoints : List Tracepoint) (ctx : TracepointProbeContext) :
    (ctx.findTracepoints tracepoints).1 =
      if (ctx.findTracepoints tracepoints).2.foundNum ≠
        (ctx.findTracepoints tracepoints).2.initNum then -1 else 0 := rfl

/-- **When the search succeeds**, each entry has a tracepoint of its name. -/
theorem findTracepoints_spec (tracepoints : List Tracepoint) (ctx : TracepointProbeContext) :
    ((ctx.findTracepoints tracepoints).1 = 0 ∨ (ctx.findTracepoints tracepoints).1 = -1) ∧
    Found ctx.entries (ctx.findTracepoints tracepoints).2.entries ∧
    ((ctx.findTracepoints tracepoints).1 = 0 →
      ∀ entry ∈ (ctx.findTracepoints tracepoints).2.entries, entry.tp.isSome) := by
  obtain ⟨hfound, hcount⟩ := inv_findTracepoints tracepoints ctx
  refine ⟨?_, hfound, fun hret => ?_⟩
  · rw [findTracepoints_ret]
    split
    · exact Or.inr rfl
    · exact Or.inl rfl
  · have hnum : (ctx.findTracepoints tracepoints).2.foundNum =
        (ctx.findTracepoints tracepoints).2.initNum := by
      by_contra hne
      rw [findTracepoints_ret, if_pos hne] at hret
      exact absurd hret (by simp)
    rw [hcount] at hnum
    exact List.countP_eq_length.mp hnum

end TracepointProbeContext

/-! ### What the loops register -/

/-- What an entry registers once it has its tracepoint. -/
def probeOf (entry : TracepointProbeEntry × ℕ) : Probe :=
  .tracepoint entry.2 (entry.1.tp.getD ⟨"", 0⟩) entry.1.probe entry.1.priv

def tracepointProbes (ctx : TracepointProbeContext) : Finset Probe :=
  (ctx.entries.zipIdx.map probeOf).toFinset

def tableProbes (kps : ℕ → Probe) (num : ℕ) : Finset Probe := ((List.range num).map kps).toFinset

theorem mem_tableProbes {kps : ℕ → Probe} {num i : ℕ} (hi : i < num) :
    kps i ∈ tableProbes kps num :=
  List.mem_toFinset.mpr (List.mem_map_of_mem (List.mem_range.mpr hi))

theorem acquires_registerTable {kps : ℕ → Probe} (hinj : Function.Injective kps) (num : ℕ) :
    Acquires Ledger.held (tableProbes kps num) (registerTable answers kps num) :=
  .acquireAll (fun _ _ => Ledger.acquires answers _) (fun _ _ => Ledger.releases _)
    (List.nodup_range.map hinj) fun ret hret => by
      rw [decide_eq_true_iff]
      omega

theorem releases_unregisterTable {kps : ℕ → Probe} (hinj : Function.Injective kps) (num : ℕ) :
    Releases Ledger.held (tableProbes kps num) (unregisterTable kps num) :=
  .releaseAll_reverse (fun _ _ => Ledger.releases _) (List.nodup_range.map hinj)

theorem kprobe_injective (kps : Table) : Function.Injective (Probe.kprobe kps) :=
  fun _ _ h => (Probe.kprobe.inj h).2

theorem kretprobe_injective (kps : Table) : Function.Injective (Probe.kretprobe kps) :=
  fun _ _ h => (Probe.kretprobe.inj h).2

/-- The position of a probe in its table. -/
def Probe.pos : Probe → ℕ
  | .tracepoint i _ _ _ | .kprobe _ i | .kretprobe _ i => i

theorem nodup_tracepoints (entries : List TracepointProbeEntry) :
    (entries.zipIdx.map probeOf).Nodup := by
  refine .of_map Probe.pos ?_
  rw [List.map_map, show Probe.pos ∘ probeOf = Prod.snd from rfl, List.zipIdx_map_snd]
  exact List.nodup_range'

variable {ctx : TracepointProbeContext}

theorem toProbe_of_isSome (h : ∀ entry ∈ ctx.entries, entry.tp.isSome) :
    ∀ entry ∈ ctx.entries.zipIdx, entry.1.toProbe entry.2 = some (probeOf entry) := by
  intro entry hentry
  obtain ⟨tp, htp⟩ := Option.isSome_iff_exists.mp (h entry.1 (List.fst_mem_of_mem_zipIdx hentry))
  rw [TracepointProbeEntry.toProbe, probeOf, htp]
  rfl

theorem releases_unregister (h : ∀ entry ∈ ctx.entries, entry.tp.isSome) :
    ∀ entry ∈ ctx.entries.zipIdx,
      Releases Ledger.held {probeOf entry} (tracepointProbeUnregister entry) := by
  intro entry hentry s hs
  rw [tracepointProbeUnregister, toProbe_of_isSome h entry hentry]
  exact Ledger.releases _ s hs

theorem acquires_registerProbes (h : ∀ entry ∈ ctx.entries, entry.tp.isSome) :
    Acquires Ledger.held (tracepointProbes ctx) (registerProbes answers ctx) := by
  refine .acquireAll (fun entry hentry s hs => ?_) (releases_unregister h)
    (nodup_tracepoints ctx.entries) fun ret _ => by simp
  rw [tracepointProbeRegister, toProbe_of_isSome h entry hentry]
  exact Ledger.acquires answers _ s hs

theorem releases_unregisterProbes (h : ∀ entry ∈ ctx.entries, entry.tp.isSome) :
    Releases Ledger.held (tracepointProbes ctx) (unregisterProbes ctx) :=
  .releaseAll (releases_unregister h) (nodup_tracepoints ctx.entries)

end CppProgramming.TcpTrace
