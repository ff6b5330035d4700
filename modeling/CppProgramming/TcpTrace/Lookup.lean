import CppProgramming.TcpTrace.Load

/-!
# The search for the tracepoints

What `tracepoint_probe_context_find_tracepoints` finds.  Two iterations run through each
other: `for_each_kernel_tracepoint` over the tracepoints of the kernel, and for each of them
`tracepoint_lookup` over the entries.  For one entry the second loop does not matter: it is
offered the tracepoints in their order (`visit`) and keeps the first one of its name
(`foldl_visit`).

The counter that both share stops the search once it has reached `init_num`.  As it counts
the entries that have a tracepoint (`Inv`), it stops when no entry can change any more
(`lookup_eq_lookupAll`).
-/

namespace CppProgramming.TcpTrace

open CppProgramming.Lib TracepointProbeContext

/-- An entry behind the visit of `tp`. -/
def TracepointProbeEntry.visit (entry : TracepointProbeEntry) (tp : Tracepoint) :
    TracepointProbeEntry :=
  if entry.tp.isSome ∨ tp.name ≠ entry.name then entry else { entry with tp := some tp }

/-- The first of the tracepoints that has the name of the entry. -/
def TracepointProbeEntry.first (entry : TracepointProbeEntry) (tracepoints : List Tracepoint) :
    Option Tracepoint :=
  tracepoints.find? (·.name = entry.name)

namespace TracepointProbeContext

/-- `tracepoint_lookup` without its early exit. -/
def lookupAll (ctx : TracepointProbeContext) (tp : Tracepoint) : TracepointProbeContext :=
  let res := lookupEntries tp ctx.entries ctx.foundNum
  { entries := res.1, foundNum := res.2 }

/-- `tracepoint_probe_context_find_tracepoints` without the early exit. -/
def findTracepointsAll (tracepoints : List Tracepoint) (ctx : TracepointProbeContext) :
    ℤ × TracepointProbeContext :=
  let ctx := { entries := ctx.entries.map fun entry => { entry with tp := none }, foundNum := 0 }
  let ctx := tracepoints.foldl lookupAll ctx
  (if ctx.foundNum ≠ ctx.initNum then -1 else 0, ctx)

variable {es : List TracepointProbeEntry} {ctx : TracepointProbeContext}

theorem lookupEntries_entries (tp : Tracepoint) (es : List TracepointProbeEntry) (found : ℕ) :
    (lookupEntries tp es found).1 = es.map (·.visit tp) := by
  induction es generalizing found with
  | nil => rfl
  | cons entry es ih =>
    rw [lookupEntries, List.map_cons, TracepointProbeEntry.visit]
    split
    · exact congrArg _ (ih found)
    · exact congrArg _ (ih (found + 1))

/-- Where every entry has its tracepoint, a visit changes nothing. -/
theorem lookupEntries_full (tp : Tracepoint) (h : ∀ entry ∈ es, entry.tp.isSome) (found : ℕ) :
    lookupEntries tp es found = (es, found) := by
  induction es with
  | nil => rfl
  | cons entry es ih =>
    obtain ⟨hentry, hes⟩ := List.forall_mem_cons.mp h
    rw [lookupEntries, if_pos (Or.inl hentry), ih hes]

/-- **The early exit** leaves out nothing. -/
theorem lookup_eq_lookupAll (h : Inv es ctx) (tp : Tracepoint) : ctx.lookup tp = ctx.lookupAll tp := by
  rw [lookup, lookupAll]
  split
  · rename_i hnum
    rw [h.2] at hnum
    rw [lookupEntries_full tp (List.countP_eq_length.mp hnum)]
  · rfl

theorem foldl_lookup_eq (tracepoints : List Tracepoint) (h : Inv es ctx) :
    tracepoints.foldl lookup ctx = tracepoints.foldl lookupAll ctx := by
  induction tracepoints generalizing ctx with
  | nil => rfl
  | cons tp tps ih =>
    rw [List.foldl_cons, List.foldl_cons, ← lookup_eq_lookupAll h tp]
    exact ih (inv_lookup h tp)

theorem foldl_lookupAll_entries (tracepoints : List Tracepoint) (ctx : TracepointProbeContext) :
    (tracepoints.foldl lookupAll ctx).entries =
      ctx.entries.map fun entry => tracepoints.foldl TracepointProbeEntry.visit entry := by
  induction tracepoints generalizing ctx with
  | nil => exact (List.map_id _).symm
  | cons tp tps ih =>
    rw [List.foldl_cons, ih, lookupAll, lookupEntries_entries, List.map_map]
    rfl

end TracepointProbeContext

/-- **An entry keeps the first tracepoint of its name.** -/
theorem foldl_visit (tracepoints : List Tracepoint) (entry : TracepointProbeEntry) :
    tracepoints.foldl TracepointProbeEntry.visit entry =
      { entry with tp := entry.tp.or (entry.first tracepoints) } := by
  induction tracepoints generalizing entry with
  | nil => simp [TracepointProbeEntry.first]
  | cons tp tps ih =>
    rw [List.foldl_cons, ih, TracepointProbeEntry.visit]
    split
    · rename_i hkeep
      rcases hkeep with hsome | hname
      · obtain ⟨t, ht⟩ := Option.isSome_iff_exists.mp hsome
        simp [ht]
      · have hrest : entry.first (tp :: tps) = entry.first tps := by
          simp [TracepointProbeEntry.first, hname]
        rw [hrest]
    · rename_i hnot
      obtain ⟨hnone, hname⟩ := not_or.mp hnot
      have hfirst : entry.first (tp :: tps) = some tp := by
        simp [TracepointProbeEntry.first, not_not.mp hname]
      rw [hfirst, Option.not_isSome_iff_eq_none.mp hnone]
      rfl

variable (tracepoints : List Tracepoint) (ctx : TracepointProbeContext)

theorem findTracepoints_eq_all :
    ctx.findTracepoints tracepoints = ctx.findTracepointsAll tracepoints := by
  have hstart : Inv ctx.entries
      { entries := ctx.entries.map fun entry => { entry with tp := none }, foundNum := 0 } :=
    inv_findTracepoints [] ctx
  rw [findTracepoints, findTracepointsAll, foldl_lookup_eq tracepoints hstart]

theorem findTracepoints_entries :
    (ctx.findTracepoints tracepoints).2.entries =
      ctx.entries.map fun entry => { entry with tp := entry.first tracepoints } := by
  rw [findTracepoints_eq_all, findTracepointsAll]
  dsimp only
  rw [foldl_lookupAll_entries, List.map_map]
  refine List.map_congr_left fun entry _ => ?_
  rw [Function.comp_apply, foldl_visit]
  rfl

/-- All entries are found when each name is there. -/
theorem findTracepoints_full_iff :
    (∀ entry ∈ (ctx.findTracepoints tracepoints).2.entries, entry.tp.isSome) ↔
      ∀ entry ∈ ctx.entries, ∃ tp ∈ tracepoints, tp.name = entry.name := by
  rw [findTracepoints_entries, List.forall_mem_map]
  refine forall₂_congr fun entry _ => ?_
  rw [TracepointProbeEntry.first, List.find?_isSome]
  simp

/-- **Finding the tracepoints.**  `0` is returned exactly when the name of every entry is
the name of some tracepoint; each entry has got the first tracepoint of its name, or `NULL`
where there is none; `found_num` is the number of those that have one; and without the early
exit it would be the same.  `tcp_trace_conn_init` goes on to the registration only when
every entry has its tracepoint. -/
theorem find_tracepoints (answers : ℕ → Answer) (n : Sizes) (ledger : Ledger Probe) :
    ((ctx.findTracepoints tracepoints).1 = 0 ↔
        ∀ entry ∈ ctx.entries, ∃ tp ∈ tracepoints, tp.name = entry.name) ∧
      (ctx.findTracepoints tracepoints).2.entries =
        (ctx.entries.map fun entry => { entry with tp := entry.first tracepoints }) ∧
      (ctx.findTracepoints tracepoints).2.foundNum =
        (ctx.findTracepoints tracepoints).2.entries.countP (·.tp.isSome) ∧
      ctx.findTracepoints tracepoints = ctx.findTracepointsAll tracepoints ∧
      ((ctx.findTracepoints tracepoints).1 < 0 ∧
          tcpTraceConnInit answers n tracepoints ⟨ctx, ledger⟩ =
            some ((ctx.findTracepoints tracepoints).1, ⟨(ctx.findTracepoints tracepoints).2, ledger⟩) ∨
        (∀ entry ∈ (ctx.findTracepoints tracepoints).2.entries, entry.tp.isSome) ∧
          tcpTraceConnInit answers n tracepoints ⟨ctx, ledger⟩ =
            (connRegister answers n (ctx.findTracepoints tracepoints).2 ledger).map fun (ret, s) =>
              (ret, ⟨(ctx.findTracepoints tracepoints).2, s⟩)) := by
  obtain ⟨hret, -, hsome⟩ := findTracepoints_spec tracepoints ctx
  have hcount := (inv_findTracepoints tracepoints ctx).2
  refine ⟨⟨fun h => (findTracepoints_full_iff tracepoints ctx).mp (hsome h), fun h => ?_⟩,
    findTracepoints_entries tracepoints ctx, hcount, findTracepoints_eq_all tracepoints ctx, ?_⟩
  · have hfull := (findTracepoints_full_iff tracepoints ctx).mpr h
    rw [findTracepoints_ret, if_neg]
    rw [hcount, not_not]
    exact List.countP_eq_length.mpr hfull
  · rcases hret with hret | hret
    · have hnot : ¬ (ctx.findTracepoints tracepoints).1 < 0 := by omega
      exact Or.inr ⟨hsome hret, if_neg hnot⟩
    · have hneg : (ctx.findTracepoints tracepoints).1 < 0 := by omega
      exact Or.inl ⟨hneg, if_pos hneg⟩

end CppProgramming.TcpTrace
