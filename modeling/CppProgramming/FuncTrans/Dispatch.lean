import CppProgramming.FuncTrans.Registration
import CppProgramming.Lib.Chain
import Mathlib.Data.List.Chain

/-!
# The calls of `hello_hook_func`

`hello_hook_func` stands for `hello_func`.  It goes through the functions that run before, the
last of which is `hello_func` itself, and then through those that run after.  In either table
the first function without `HOOK_ENABLE_POST_RUN` is the last that is called.

A function is known by its address and may change all of the program, the tables too.  The
functions that run after get a pointer to one `struct hook_pt_regs`, so what one of them writes
there is what the next one sees.

* `Dispatched`: which functions are called, in which order, with what, and what is returned.
* `dispatched_of_represents`: this is what `hello_hook_func` does when the tables hold a
  registry and the functions in it leave the tables alone.
-/

namespace CppProgramming.FuncTrans

open CppProgramming.Lib

/-! ### The functions of the program -/

/-- The arguments of a `func_t`. -/
structure Args where
  arg0 : BitVec 64
  arg1 : BitVec 64
  arg2 : BitVec 64
  arg3 : BitVec 64
  arg4 : BitVec 64
  arg5 : BitVec 64
deriving DecidableEq

/-- `struct hook_pt_regs` -/
structure HookPtRegs where
  args : Args
  ret : BitVec 64
  blank : BitVec 64
deriving DecidableEq

def helloFunc (args : Args) : BitVec 64 := args.arg0 + args.arg1 + args.arg2

/-- What a function can read and write: the globals of the file, and all the rest. -/
structure Machine (W : Type*) where
  globals : Globals
  world : W

/-- What the functions do, by address: a `func_t`, and a `post_func_t`, whose result nobody
reads. -/
structure Code (W : Type*) extends Symbols where
  func : BitVec 64 → Args → Machine W → BitVec 64 × Machine W
  postFunc : BitVec 64 → HookPtRegs → Machine W → HookPtRegs × Machine W
  func_helloFunc : ∀ args m, func helloFunc args m = (FuncTrans.helloFunc args, m)

def HOOK_ENABLE_POST_RUN : BitVec 64 := 0x1

/-- The function is the last that is called. -/
def HookFunc.stops (f : HookFunc) : Bool := f.flag &&& HOOK_ENABLE_POST_RUN = 0

/-- A call of a function that runs before, with its result. -/
structure PrevCall where
  func : BitVec 64
  args : Args
  ret : BitVec 64
deriving DecidableEq

/-- A call of a function that runs after, with what it finds in `*ctx` and what it leaves. -/
structure PostCall where
  func : BitVec 64
  ctx : HookPtRegs
  left : HookPtRegs
deriving DecidableEq

/-! ### The code -/

variable {W : Type*}

/-- The first loop.  `ret` has no value before it is assigned. -/
structure PrevLoop (W : Type*) where
  ret : Option (BitVec 64)
  machine : Machine W
  calls : List PrevCall

structure PostLoop (W : Type*) where
  ctx : HookPtRegs
  machine : Machine W
  calls : List PostCall

/-- What has come of a call of `hello_hook_func`. -/
structure Dispatch (W : Type*) where
  ret : BitVec 64
  prevs : List PrevCall
  posts : List PostCall
  machine : Machine W

variable (code : Code W)

/-- One turn of the first loop, and whether it is left.  The flag is read after the call. -/
def prevStep (args : Args) (i : Fin 8) (s : PrevLoop W) : PrevLoop W × Bool :=
  let f := s.machine.globals.helloHook.prevFunc i
  if f.func = 0 then (s, false)
  else
    let (ret, m) := code.func f.func args s.machine
    (⟨some ret, m, s.calls ++ [⟨f.func, args, ret⟩]⟩, (m.globals.helloHook.prevFunc i).stops)

def postStep (i : Fin 8) (s : PostLoop W) : PostLoop W × Bool :=
  let f := s.machine.globals.helloHook.postFunc i
  if f.func = 0 then (s, false)
  else
    let (ctx, m) := code.postFunc f.func s.ctx s.machine
    (⟨ctx, m, s.calls ++ [⟨f.func, s.ctx, ctx⟩]⟩, (m.globals.helloHook.postFunc i).stops)

/-- `hello_hook_func`; `none` is a use of `ret` that was never assigned. -/
def helloHookFunc (args : Args) (m : Machine W) : Option (Dispatch W) :=
  let s := scan (prevStep code args) (List.finRange 8) ⟨none, m, []⟩
  match s.ret with
  | none => none
  | some ret =>
    let t := scan (postStep code) (List.finRange 8) ⟨⟨args, ret, 0⟩, s.machine, []⟩
    some ⟨ret, s.calls, t.calls, t.machine⟩

/-! ### What is asked of it -/

/-- The hooks of a table, in the order of their indices. -/
def Registry.hooks (reg : Registry) (t : Table) : List HookFunc :=
  (List.finRange 7).filterMap fun i => reg ⟨t, i⟩

/-- The calls that run before, one after the other. -/
def prevCalls : System (Machine W) PrevCall where
  init _ := True
  step m c m' := code.func c.func c.args m = (c.ret, m')

/-- The calls that run after, with the one `*ctx` that they share. -/
def postCalls : System (HookPtRegs × Machine W) PostCall where
  init _ := True
  step s c t := c.ctx = s.1 ∧ code.postFunc c.func s.1 s.2 = (c.left, t.2) ∧ t.1 = c.left

/-- **Which functions are called**, in which order, and what is returned. -/
structure Called (reg : Registry) (args : Args) (d : Dispatch W) : Prop where
  prevs : d.prevs.map PrevCall.func =
    (through HookFunc.stops (reg.hooks .prev)).map HookFunc.func ++
      if (reg.hooks .prev).any HookFunc.stops then [] else [code.helloFunc]
  prevArgs : ∀ c ∈ d.prevs, c.args = args
  ret : d.prevs.getLast?.map PrevCall.ret = some d.ret
  posts : d.posts.map PostCall.func =
    (through HookFunc.stops (reg.hooks .post)).map HookFunc.func

/-- Every function that runs after gets the arguments and the result. -/
structure DispatchedPlainly (reg : Registry) (args : Args) (d : Dispatch W) : Prop
    extends Called code reg args d where
  ctx : ∀ c ∈ d.posts, c.ctx = ⟨args, d.ret, 0⟩

/-- **What a call of `hello_hook_func` comes to**: a function that runs after gets what the one
before it has left of the arguments and the result. -/
structure Dispatched (reg : Registry) (args : Args) (m : Machine W) (d : Dispatch W) : Prop
    extends Called code reg args d where
  next : d.posts.IsChain fun b c => c.ctx = b.left
  unwritten : ∀ bs c cs, d.posts = bs ++ c :: cs → (∀ b ∈ bs, b.left = b.ctx) →
    c.ctx = ⟨args, d.ret, 0⟩
  run : ∃ m' ctx, (prevCalls code).Run m d.prevs m' ∧
    (postCalls code).Run (⟨args, d.ret, 0⟩, m') d.posts (ctx, d.machine)

/-- The function at an address leaves the tables alone. -/
def Code.KeepsPrev (f : BitVec 64) : Prop :=
  ∀ args m, (code.func f args m).2.globals.helloHook = m.globals.helloHook

def Code.KeepsPost (f : BitVec 64) : Prop :=
  ∀ ctx m, (code.postFunc f ctx m).2.globals.helloHook = m.globals.helloHook

variable {code} {m : Machine W} {args : Args}

/-! ### A loop over one of the tables -/

theorem entry_eq_some {f a : HookFunc} (h : f.entry = some a) : f.func ≠ 0 ∧ a = f := by
  obtain ⟨hne, heq⟩ := Option.ite_none_left_eq_some.mp h
  exact ⟨hne, (Option.some.inj heq).symm⟩

theorem entry_eq_none {f : HookFunc} (h : f.entry = none) : f.func = 0 := by
  by_contra hne
  rw [HookFunc.entry, if_neg hne] at h
  exact absurd h (by simp)

/-- **Either loop** calls the functions in its table up to the first that stops, as long as
they leave the tables alone. -/
theorem scan_places {σ : Type*} (hookOf : σ → Hook) (call : σ → HookFunc → σ)
    (place : Hook → Fin 8 → HookFunc) {step : Fin 8 → σ → σ × Bool} {hook : Hook} {s : σ}
    (hstep : ∀ i s, step i s =
      if (place (hookOf s) i).func = 0 then (s, false)
      else (call s (place (hookOf s) i), (place (hookOf (call s (place (hookOf s) i))) i).stops))
    (hkeep : ∀ f ∈ (List.finRange 8).filterMap fun i => (place hook i).entry,
      ∀ s, hookOf (call s f) = hookOf s) (hs : hookOf s = hook) :
    scan step (List.finRange 8) s = (through HookFunc.stops
        ((List.finRange 8).filterMap fun i => (place hook i).entry)).foldl call s ∧
      hookOf (scan step (List.finRange 8) s) = hook := by
  have hkeep : ∀ i f s, (place hook i).entry = some f → hookOf (call s f) = hookOf s :=
    fun i f s hf => hkeep f (List.mem_filterMap.mpr ⟨i, List.mem_finRange i, hf⟩) s
  have hnone : ∀ i s, hookOf s = hook → (place hook i).entry = none → step i s = (s, false) := by
    intro i s hs hnone
    rw [hstep, hs, if_pos (entry_eq_none hnone)]
  have hsome : ∀ i f s, hookOf s = hook → (place hook i).entry = some f →
      step i s = (call s f, f.stops) := by
    intro i f s hs hsome
    have hcall := hkeep i f s hsome
    obtain ⟨hne, rfl⟩ := entry_eq_some hsome
    rw [hstep, hs, if_neg hne, hcall, hs]
  exact scan_eq_foldl hnone hsome (fun i f s hs hf => (hkeep i f s hf).trans hs)
    (List.finRange 8) hs

/-! ### The first loop -/

def callPrev (code : Code W) (args : Args) (s : PrevLoop W) (f : HookFunc) : PrevLoop W :=
  ⟨some (code.func f.func args s.machine).1, (code.func f.func args s.machine).2,
    s.calls ++ [⟨f.func, args, (code.func f.func args s.machine).1⟩]⟩

/-- What has been called so far. -/
structure PrevCalled (code : Code W) (args : Args) (m : Machine W) (fs : List HookFunc)
    (s : PrevLoop W) : Prop where
  funcs : s.calls.map PrevCall.func = fs.map HookFunc.func
  args : ∀ c ∈ s.calls, c.args = args
  ret : s.ret = s.calls.getLast?.map PrevCall.ret
  run : (prevCalls code).Run m s.calls s.machine

theorem PrevCalled.call {fs : List HookFunc} {s : PrevLoop W}
    (h : PrevCalled code args m fs s) (f : HookFunc) :
    PrevCalled code args m (fs ++ [f]) (callPrev code args s f) where
  funcs := by
    rw [callPrev, List.map_append, h.funcs, List.map_append]
    rfl
  args c hc := by
    rcases List.mem_append.mp hc with hc | hc
    · exact h.args c hc
    · rw [List.mem_singleton.mp hc]
  ret := by
    rw [callPrev, List.getLast?_concat]
    rfl
  run := .snoc h.run rfl

theorem prevCalled_foldl (fs : List HookFunc) :
    PrevCalled code args m fs (fs.foldl (callPrev code args) ⟨none, m, []⟩) := by
  induction fs using List.reverseRecOn with
  | nil => exact ⟨rfl, by simp, rfl, .nil m⟩
  | append_singleton fs f ih =>
    rw [List.foldl_concat]
    exact ih.call f

/-- **The first loop** calls the functions in its table up to the first that stops. -/
theorem scan_prevStep {hook : Hook} (hm : m.globals.helloHook = hook)
    (hkeep : ∀ f ∈ (List.finRange 8).filterMap fun i => (hook.prevFunc i).entry,
      code.KeepsPrev f.func) :
    PrevCalled code args m
        (through HookFunc.stops ((List.finRange 8).filterMap fun i => (hook.prevFunc i).entry))
        (scan (prevStep code args) (List.finRange 8) ⟨none, m, []⟩) ∧
      (scan (prevStep code args) (List.finRange 8) ⟨none, m, []⟩).machine.globals.helloHook =
        hook := by
  obtain ⟨heq, hkept⟩ := scan_places (fun s : PrevLoop W => s.machine.globals.helloHook)
    (callPrev code args) Hook.prevFunc (fun i s => (rfl : prevStep code args i s = _))
    (fun f hf s => hkeep f hf args s.machine) (s := ⟨none, m, []⟩) hm
  exact ⟨heq ▸ prevCalled_foldl _, hkept⟩

/-! ### The second loop -/

def callPost (code : Code W) (s : PostLoop W) (f : HookFunc) : PostLoop W :=
  ⟨(code.postFunc f.func s.ctx s.machine).1, (code.postFunc f.func s.ctx s.machine).2,
    s.calls ++ [⟨f.func, s.ctx, (code.postFunc f.func s.ctx s.machine).1⟩]⟩

structure PostCalled (code : Code W) (ctx : HookPtRegs) (m : Machine W) (fs : List HookFunc)
    (s : PostLoop W) : Prop where
  funcs : s.calls.map PostCall.func = fs.map HookFunc.func
  run : (postCalls code).Run (ctx, m) s.calls (s.ctx, s.machine)

variable {ctx : HookPtRegs}

theorem postCalled_foldl (fs : List HookFunc) :
    PostCalled code ctx m fs (fs.foldl (callPost code) ⟨ctx, m, []⟩) := by
  induction fs using List.reverseRecOn with
  | nil => exact ⟨rfl, .nil _⟩
  | append_singleton fs f ih =>
    rw [List.foldl_concat]
    refine ⟨?_, .snoc ih.run ⟨rfl, rfl, rfl⟩⟩
    rw [callPost, List.map_append, ih.funcs, List.map_append]
    rfl

/-- **The second loop** does the same, with the union behind its table as its last place. -/
theorem scan_postStep {hook : Hook} (hm : m.globals.helloHook = hook)
    (hkeep : ∀ f ∈ (List.finRange 8).filterMap fun i => (hook.postFunc i).entry,
      code.KeepsPost f.func) :
    PostCalled code ctx m
      (through HookFunc.stops ((List.finRange 8).filterMap fun i => (hook.postFunc i).entry))
      (scan (postStep code) (List.finRange 8) ⟨ctx, m, []⟩) := by
  obtain ⟨heq, -⟩ := scan_places (fun s : PostLoop W => s.machine.globals.helloHook)
    (callPost code) Hook.postFunc (fun i s => (rfl : postStep code i s = _))
    (fun f hf s => hkeep f hf s.ctx s.machine) (s := ⟨ctx, m, []⟩) hm
  exact heq ▸ postCalled_foldl _

/-- What a call finds in `*ctx` is what the one before it has left there. -/
theorem next_of_run {s t : HookPtRegs × Machine W} {cs : List PostCall}
    (h : (postCalls code).Run s cs t) :
    (cs.IsChain fun b c => c.ctx = b.left) ∧ ∀ c ∈ cs.getLast?, t.1 = c.left := by
  induction h with
  | nil => exact ⟨.nil, by simp⟩
  | @snoc u t cs c hrun hstep ih =>
    obtain ⟨hchain, hlast⟩ := ih
    obtain ⟨hctx, -, hleft⟩ := hstep
    refine ⟨List.isChain_append.mpr ⟨hchain, .singleton c, fun b hb c' hc' => ?_⟩, fun c' hc' => ?_⟩
    · obtain rfl := Option.some.inj hc'
      exact hctx.trans (hlast b hb)
    · rw [List.getLast?_concat] at hc'
      obtain rfl := Option.some.inj hc'
      exact hleft

/-- As long as nothing has been written there, it is what it was at first. -/
theorem unwritten_of_run {s t : HookPtRegs × Machine W} {cs : List PostCall}
    (h : (postCalls code).Run s cs t) : (∀ b ∈ cs, b.left = b.ctx) → t.1 = s.1 := by
  induction h with
  | nil => exact fun _ => rfl
  | @snoc u t cs c hrun hstep ih =>
    intro hcs
    obtain ⟨hctx, -, hleft⟩ := hstep
    rw [hleft, hcs c (by simp), hctx]
    exact ih fun b hb => hcs b (List.mem_append_left _ hb)

theorem ctx_of_run {s t : HookPtRegs × Machine W} {as bs cs : List PostCall} {c : PostCall}
    (h : (postCalls code).Run s as t) (has : as = bs ++ c :: cs)
    (hbs : ∀ b ∈ bs, b.left = b.ctx) : c.ctx = s.1 := by
  rw [has, List.append_cons] at h
  obtain ⟨u, hfront, -⟩ := h.of_append
  obtain ⟨v, hbefore, hstep⟩ := hfront.of_concat
  exact hstep.1.trans (unwritten_of_run hbefore hbs)

/-! ### What a call comes to -/

variable {reg : Registry} {g : Globals}

theorem originFuncHook_entry (sym : Symbols) :
    sym.originFuncHook.entry = some sym.originFuncHook :=
  if_neg sym.helloFunc_ne

theorem stops_originFuncHook (sym : Symbols) : sym.originFuncHook.stops = true := by
  simp [Symbols.originFuncHook, HookFunc.stops]

/-- The first table is the hooks of the registry with the original function behind them. -/
theorem prevFunc_of_represents {sym : Symbols} (h : Represents sym g reg)
    (hinited : g.inited = true) :
    ((List.finRange 8).filterMap fun i => (g.helloHook.prevFunc i).entry) =
      reg.hooks .prev ++ [sym.originFuncHook] := by
  have hlast : (g.helloHook.prevFunc (Fin.last 7)).entry = some sym.originFuncHook := by
    show (g.helloHook.place 7).entry = _
    rw [h.reserved, if_pos hinited, originFuncHook_entry]
  rw [filterMap_finRange_succ, hlast, Registry.hooks]
  exact congrArg (fun f => List.filterMap f _ ++ _) (funext fun i => h.slot ⟨.prev, i⟩)

theorem postFunc_of_represents {sym : Symbols} (h : Represents sym g reg) :
    ((List.finRange 8).filterMap fun i => (g.helloHook.postFunc i).entry) = reg.hooks .post := by
  have hlast : (g.helloHook.postFunc (Fin.last 7)).entry = none := by
    show (g.helloHook.place 15).entry = _
    rw [h.blank]
    rfl
  rw [filterMap_finRange_succ, hlast, Option.toList_none, List.append_nil, Registry.hooks]
  exact congrArg (fun f => List.filterMap f _) (funext fun i => h.slot ⟨.post, i⟩)

/-- **With the tables a registry** and hooks that leave them alone, a call does what is asked
of it. -/
theorem dispatched_of_represents (h : Represents code.toSymbols g reg) (hinited : g.inited = true)
    (hm : m.globals.helloHook = g.helloHook)
    (hprev : ∀ f ∈ reg.hooks .prev, code.KeepsPrev f.func)
    (hpost : ∀ f ∈ reg.hooks .post, code.KeepsPost f.func) :
    ∃ d, helloHookFunc code args m = some d ∧ Dispatched code reg args m d := by
  have hprevs := prevFunc_of_represents h hinited
  have hposts := postFunc_of_represents h
  have hkeepPrev : ∀ f ∈ reg.hooks .prev ++ [code.originFuncHook], code.KeepsPrev f.func := by
    intro f hf
    rcases List.mem_append.mp hf with hf | hf
    · exact hprev f hf
    · rw [List.mem_singleton.mp hf]
      exact fun args m => congrArg (·.2.globals.helloHook) (code.func_helloFunc args m)
  obtain ⟨hs, hhook⟩ : PrevCalled code args m _ _ ∧ _ :=
    scan_prevStep hm (hprevs ▸ hkeepPrev)
  rw [hprevs] at hs
  generalize hscan : scan (prevStep code args) (List.finRange 8) ⟨none, m, []⟩ = s at hs hhook
  -- the original function is there, so something has been called
  have hne : s.calls ≠ [] := by
    intro hnil
    have hfuncs := hs.funcs
    rw [hnil] at hfuncs
    exact through_ne_nil (by simp) (List.map_eq_nil_iff.mp hfuncs.symm)
  obtain ⟨c, hc⟩ := Option.isSome_iff_exists.mp (List.getLast?_isSome.mpr hne)
  have hret : s.ret = some c.ret := by rw [hs.ret, hc, Option.map_some]
  have ht : PostCalled code ⟨args, c.ret, 0⟩ _ _ _ := scan_postStep hhook (hposts ▸ hpost)
  rw [hposts] at ht
  generalize hscan' : scan (postStep code) (List.finRange 8) ⟨⟨args, c.ret, 0⟩, s.machine, []⟩ = t
    at ht
  refine ⟨⟨c.ret, s.calls, t.calls, t.machine⟩, ?_, ?_⟩
  · simp only [helloHookFunc, hscan, hret, hscan']
  · refine ⟨⟨?_, hs.args, ?_, ht.funcs⟩, (next_of_run ht.run).1,
      fun bs c cs hsplit hbs => ctx_of_run ht.run hsplit hbs, ⟨s.machine, t.ctx, hs.run, ht.run⟩⟩
    · rw [hs.funcs, through_concat (stops_originFuncHook _), List.map_append]
      congr 1
      split <;> rfl
    · rw [hc, Option.map_some]

/-- **Hook dispatch**: after any calls for slots, at least one, `hello_hook_func` does what is
asked of it, for hooks that leave the tables alone.  A hook that is `NULL` counts as none. -/
theorem helloHookFunc_dispatched (code : Code W) {rs : List Registration} (hne : rs ≠ [])
    (hrs : ∀ r ∈ rs, (0 ≤ r.index ∧ r.index ≤ 6) ∧ (r.type = 0 ∨ r.type = 1))
    (hprev : ∀ f ∈ (Registry.ofCalls rs).hooks .prev, code.KeepsPrev f.func)
    (hpost : ∀ f ∈ (Registry.ofCalls rs).hooks .post, code.KeepsPost f.func) :
    ∃ g, (registrations code.toSymbols).Run .init rs g ∧
      ∀ args m, m.globals.helloHook = g.helloHook →
        ∃ d, helloHookFunc code args m = some d ∧ Dispatched code (.ofCalls rs) args m d := by
  have hchecked : ∀ r ∈ rs, r.Checked := by
    intro r hr
    obtain ⟨⟨hlow, hhigh⟩, -⟩ := hrs r hr
    exact Or.inl ⟨hlow, by omega⟩
  obtain ⟨g, hrun, hg⟩ := represents_run rs hchecked
  exact ⟨g, hrun, fun args m hm =>
    dispatched_of_represents hg ((inited_of_run hrun).2 hne) hm hprev hpost⟩

/-- The functions of the file, one more that registers `hello_func1` for the place `3`, and one
that writes `ctx->ret`. -/
def mainCode : Code Unit where
  toSymbols := mainSymbols
  func f args m :=
    if f = 0x142f then (args.arg0 + args.arg1 + args.arg2 + 1, m)
    else if f = 0x1500 then
      match registerHook mainSymbols m.globals ⟨0x142f, 0, 0, 3⟩ with
      | none => (0, m)
      | some (_, g) => (0, { m with globals := g })
    else (helloFunc args, m)
  postFunc f ctx m := if f = 0x1550 then ({ ctx with ret := 0 }, m) else (ctx, m)
  func_helloFunc _ _ := rfl

theorem helloHookFunc_dispatched_main :
    ∃ g, (registrations mainSymbols).Run .init mainCalls g ∧
      ∀ args m, m.globals.helloHook = g.helloHook →
        ∃ d, helloHookFunc mainCode args m = some d ∧
          Dispatched mainCode (.ofCalls mainCalls) args m d := by
  refine helloHookFunc_dispatched mainCode (by decide) (by decide) ?_ ?_
  · have hhooks : (Registry.ofCalls mainCalls).hooks .prev = [⟨0x142f, 0⟩] := by decide
    rw [hhooks]
    exact List.forall_mem_singleton.mpr fun args m => rfl
  · have hhooks : (Registry.ofCalls mainCalls).hooks .post = [⟨0x1476, 1⟩] := by decide
    rw [hhooks]
    exact List.forall_mem_singleton.mpr fun ctx m => rfl

/-- The globals after two calls, for the places `k` and `l`. -/
def mainGlobals (k l : Fin 16) (f f' : HookFunc) : Globals :=
  { Globals.init.install mainSymbols with
    helloHook := ((Globals.init.install mainSymbols).helloHook.set k f).set l f' }

/-- The next hook finds what one has written to `ctx->ret`, and a hook that registers another
behind it has it called. -/
theorem hooks_disturb :
    (∃ g d, (registrations mainSymbols).Run .init [⟨0x1550, 1, 1, 0⟩, ⟨0x1476, 1, 1, 1⟩] g ∧
      helloHookFunc mainCode ⟨1, 2, 3, 0, 0, 0⟩ ⟨g, ()⟩ = some d ∧
      ¬ DispatchedPlainly mainCode (.ofCalls [⟨0x1550, 1, 1, 0⟩, ⟨0x1476, 1, 1, 1⟩])
        ⟨1, 2, 3, 0, 0, 0⟩ d) ∧
    ∃ g d, (registrations mainSymbols).Run .init [⟨0x1500, 1, 0, 0⟩, ⟨0x1476, 1, 1, 1⟩] g ∧
      helloHookFunc mainCode ⟨1, 2, 3, 0, 0, 0⟩ ⟨g, ()⟩ = some d ∧
      ¬ DispatchedPlainly mainCode (.ofCalls [⟨0x1500, 1, 0, 0⟩, ⟨0x1476, 1, 1, 1⟩])
        ⟨1, 2, 3, 0, 0, 0⟩ d := by
  constructor
  · have hposts : (helloHookFunc mainCode ⟨1, 2, 3, 0, 0, 0⟩
        ⟨mainGlobals 8 9 ⟨0x1550, 1⟩ ⟨0x1476, 1⟩, ()⟩).map (fun d => (d.ret, d.posts)) =
        some (6, [⟨0x1550, ⟨⟨1, 2, 3, 0, 0, 0⟩, 6, 0⟩, ⟨⟨1, 2, 3, 0, 0, 0⟩, 0, 0⟩⟩,
          ⟨0x1476, ⟨⟨1, 2, 3, 0, 0, 0⟩, 0, 0⟩, ⟨⟨1, 2, 3, 0, 0, 0⟩, 0, 0⟩⟩]) := by
      decide
    obtain ⟨d, hd, heq⟩ := Option.map_eq_some_iff.mp hposts
    obtain ⟨hret, hposts⟩ := Prod.mk.inj heq
    refine ⟨_, d, System.run_ofStep rfl, hd, fun h => ?_⟩
    have hctx := h.ctx
    rw [hret, hposts] at hctx
    obtain ⟨-, hctx⟩ := List.forall_mem_cons.mp hctx
    exact absurd (List.forall_mem_singleton.mp hctx) (by decide)
  · have hprevs : (helloHookFunc mainCode ⟨1, 2, 3, 0, 0, 0⟩
        ⟨mainGlobals 0 9 ⟨0x1500, 1⟩ ⟨0x1476, 1⟩, ()⟩).map (fun d => d.prevs.map PrevCall.func) =
        some [0x1500, 0x142f] := by
      decide
    obtain ⟨d, hd, hprevs⟩ := Option.map_eq_some_iff.mp hprevs
    refine ⟨_, d, System.run_ofStep rfl, hd, fun h => ?_⟩
    exact absurd (hprevs.symm.trans h.prevs) (by decide)

end CppProgramming.FuncTrans
