import CppProgramming.Lib.CallTrace

/-!
# The kretprobes of `tcp_trace`

The filter and the displays of `tcp_trace_filter.c`, and the handlers of the nine
kretprobes of `tcp_trace_conn.c` and `tcp_trace_data.c`.  Seven of them remember at
the entry of a call which socket they have shown, in `ctx->sk`, and show it again when
the call returns; by then the argument registers are lost.  Two look at the result only.

The kernel gives each kretprobe `maxactive` instances, and an instance keeps the
`ctx` of the call that had it last.  That no return shows a socket of another call
rests on the assignment of `NULL` with which every entry handler begins.
-/

namespace CppProgramming.TcpTrace.Kretprobe

open CppProgramming.Lib CallTrace

/-! ### What the handlers read -/

/-- `struct sock` and what `struct tcp_sock` has behind it.  Ports and addresses of the
remote side, and both IPv4 addresses, stand as on the wire. -/
structure Sock where
  skNum : UInt16
  skDport : UInt16
  skFamily : UInt16
  skState : Fin 13
  skRcvSaddr : UInt32
  skDaddr : UInt32
  skV6RcvSaddr : BitVec 128
  skV6Daddr : BitVec 128
  bytesAcked : UInt64
  bytesReceived : UInt64
  sndUna : UInt32
  copiedSeq : UInt32
  sndNxt : UInt32
  rcvNxt : UInt32
  writeSeq : UInt32
  rcvWnd : UInt32
  sndWnd : UInt32
  srttUs : UInt32
deriving Inhabited

/-- `struct tcphdr`. -/
structure Tcphdr where
  fin : Bool
  syn : Bool
  rst : Bool
  psh : Bool
  ack : Bool
  urg : Bool
  ece : Bool
  cwr : Bool
  ackSeq : UInt32
  seq : UInt32
  window : UInt16
  doff : Fin 16
deriving Inhabited

structure SkBuff where
  data : Tcphdr
  len : UInt32
deriving Inhabited

/-- The memory while a handler runs: what is at which address. -/
structure Mem where
  sock : ℕ → Sock
  skb : ℕ → SkBuff

structure PtRegs where
  di : ℕ
  si : ℕ
  dx : ℕ
  cx : ℕ
  r8 : ℕ
  r9 : ℕ
  ax : ℕ
deriving Inhabited

def x86_64GetRegsArg (regs : PtRegs) (index : ℤ) : ℕ :=
  let args := [regs.di, regs.si, regs.dx, regs.cx, regs.r8, regs.r9]
  if ¬(0 ≤ index ∧ index < 6) then 0 else args.getD index.toNat 0

def regsReturnValue (regs : PtRegs) : ℕ := regs.ax

def ntohs (x : UInt16) : UInt16 := (x <<< 8) ||| (x >>> 8)

def ntohl (x : UInt32) : UInt32 :=
  let mask : UInt32 := 0xff00
  (x <<< 24) ||| ((x &&& mask) <<< 8) ||| ((x >>> 8) &&& mask) ||| (x >>> 24)

/-! ### The filter -/

structure SockFilterConfig where
  localPort : UInt16
  remotePort : UInt16
  enableIpv4 : Bool
  enableIpv6 : Bool
  localAddrIpv4 : UInt32
  remoteAddrIpv4 : UInt32

/-- `sock_config` before the parameters of the module are read. -/
def sockConfig : SockFilterConfig where
  localPort := 0
  remotePort := 0
  enableIpv4 := true
  localAddrIpv4 := 0
  remoteAddrIpv4 := 0
  enableIpv6 := true

def initSockConfigFromParam (config : SockFilterConfig)
    (localPort remotePort enableIpv4 enableIpv6 : Int32) : SockFilterConfig :=
  { config with
    localPort := localPort.toUInt32.toUInt16
    remotePort := remotePort.toUInt32.toUInt16
    enableIpv4 := enableIpv4 != 0
    enableIpv6 := enableIpv6 != 0 }

def traceLevel : ℤ := 3

def afInet : UInt16 := 2

def afInet6 : UInt16 := 10

variable (config : SockFilterConfig)

def sockFilter (mem : Mem) (sk : ℕ) (funcLevel : ℤ) : Bool :=
  if sk = 0 then false
  else if traceLevel < funcLevel then false
  else
    let localPort := (mem.sock sk).skNum
    let remotePort := ntohs (mem.sock sk).skDport
    if ¬(config.localPort = 0 ∨ localPort = config.localPort) then false
    else if ¬(config.remotePort = 0 ∨ remotePort = config.remotePort) then false
    else
      let family := (mem.sock sk).skFamily
      if family = afInet then
        if ¬config.enableIpv4 then false
        else
          let localAddr := (mem.sock sk).skRcvSaddr
          if ¬(config.localAddrIpv4 = 0 ∨ localAddr = config.localAddrIpv4) then false
          else
            let remoteAddr := (mem.sock sk).skDaddr
            if ¬(config.remoteAddrIpv4 = 0 ∨ remoteAddr = config.remoteAddrIpv4) then false
            else true
      else if family = afInet6 then if ¬config.enableIpv6 then false else true
      else true

/-! ### The displays -/

/-- An argument of `pr_debug`. -/
inductive Arg
  | str (s : String)
  | num (n : ℕ)
deriving DecidableEq

/-- A call of `pr_debug`. -/
structure Line where
  format : String
  args : List Arg
deriving DecidableEq

def tcpStateDesc : Vector String 13 :=
  #v["NONE", "TCP_ESTABLISHED", "TCP_SYN_SENT", "TCP_SYN_RECV", "TCP_FIN_WAIT1", "TCP_FIN_WAIT2",
    "TCP_TIME_WAIT", "TCP_CLOSE", "TCP_CLOSE_WAIT", "TCP_LAST_ACK", "TCP_LISTEN", "TCP_CLOSING",
    "TCP_NEW_SYN_RECV"]

def sockCommonDisplay (mem : Mem) (sk : ℕ) (name : String) : List Line :=
  if sk = 0 then []
  else
    let s := mem.sock sk
    let localPort := s.skNum.toNat
    let remotePort := (ntohs s.skDport).toNat
    let state := tcpStateDesc.get s.skState
    if s.skFamily = afInet then
      [⟨"%-32s  sock: 0x%lx, local: %pI4:%d, remote: %pI4:%d, state: %s\n",
        [.str name, .num sk, .num s.skRcvSaddr.toNat, .num localPort, .num s.skDaddr.toNat,
          .num remotePort, .str state]⟩]
    else if s.skFamily = afInet6 then
      [⟨"%-32s  sock: 0x%lx, local: [%pI6]:%d, remote: [%pI6]:%d state: %s\n",
        [.str name, .num sk, .num s.skV6RcvSaddr.toNat, .num localPort, .num s.skV6Daddr.toNat,
          .num remotePort, .str state]⟩]
    else []

def sockFilterAndDisplay (mem : Mem) (sk : ℕ) (funcLevel : ℤ) (name : String) :
    Bool × List Line :=
  if ¬sockFilter config mem sk funcLevel then (false, [])
  else (true, sockCommonDisplay mem sk name)

def tcpSockDisplay (mem : Mem) (sk : ℕ) : List Line :=
  let tp := mem.sock sk
  [⟨"bytes_acked:     0x%08x,   bytes_received:  0x%08x\n",
      [.num tp.bytesAcked.toUInt32.toNat, .num tp.bytesReceived.toUInt32.toNat]⟩,
    ⟨"snd_una:         0x%08x,   copied_seq:      0x%08x\n",
      [.num tp.sndUna.toNat, .num tp.copiedSeq.toNat]⟩,
    ⟨"snd_nxt:         0x%08x,   rcv_nxt:         0x%08x\n",
      [.num tp.sndNxt.toNat, .num tp.rcvNxt.toNat]⟩,
    ⟨"write_seq:       0x%08x,   recv not copy:   0x%08x\n",
      [.num tp.writeSeq.toNat, .num (tp.rcvNxt - tp.copiedSeq).toNat]⟩,
    ⟨"send not ack:    0x%08x,   rcv_wnd:         0x%08x\n",
      [.num (tp.sndNxt - tp.sndUna).toNat, .num tp.rcvWnd.toNat]⟩,
    ⟨"write not send:  0x%08x\n", [.num (tp.writeSeq - tp.sndNxt).toNat]⟩,
    ⟨"snd_wnd:         0x%08x\n", [.num tp.sndWnd.toNat]⟩,
    ⟨"srtt_us:           %8d\n", [.num (tp.srttUs >>> 3).toNat]⟩]

def tcpRecvSkbDisplay (mem : Mem) (skb : ℕ) : List Line :=
  let th := (mem.skb skb).data
  [⟨"recv flags:  fin: %d, syn: %d, rst: %d, psh: %d, ack: %d, urg: %d, ece: %d, cwr: %d\n",
      [th.fin, th.syn, th.rst, th.psh, th.ack, th.urg, th.ece, th.cwr].map
        fun flag => .num flag.toNat⟩,
    ⟨"recv ack:        0x%08x,   recv seq:        0x%08x\n",
      [.num (ntohl th.ackSeq).toNat, .num (ntohl th.seq).toNat]⟩,
    ⟨"recv wnd:        0x%08x,   recv len:        0x%08x\n",
      [.num (ntohs th.window).toNat,
        .num ((mem.skb skb).len - UInt32.ofNat (th.doff.val <<< 2)).toNat]⟩]

def emptyLine : Line := ⟨"\n", []⟩

/-! ### The handlers -/

structure TcpCommonCtx where
  sk : ℕ
deriving Inhabited, DecidableEq

/-- What the seven pairs of handlers differ in: `level` and `name` of the entry, what it
shows besides the socket, and what the return shows. -/
structure Followed where
  level : ℤ
  name : String
  more : Mem → PtRegs → List Line
  after : Mem → ℕ → List Line

/-- The entry handler.  All of them return 0, so that the kernel keeps the instance. -/
def Followed.entryHandler (v : Followed) (mem : Mem) (regs : PtRegs) (ctx : TcpCommonCtx) :
    TcpCommonCtx × List Line :=
  let sk := x86_64GetRegsArg regs 0
  let ctx := { ctx with sk := 0 }
  let shown := sockFilterAndDisplay config mem sk v.level v.name
  if ¬shown.1 then (ctx, shown.2) else ({ ctx with sk := sk }, shown.2 ++ v.more mem regs)

def Followed.handler (v : Followed) (mem : Mem) (_ : PtRegs) (ctx : TcpCommonCtx) : List Line :=
  if ctx.sk = 0 then [] else v.after mem ctx.sk

/-- The two handlers without an entry, by the level, the name and what follows the socket. -/
structure Accepted where
  level : ℤ
  name : String
  more : List Line

def Accepted.handler (v : Accepted) (mem : Mem) (regs : PtRegs) (_ : TcpCommonCtx) :
    List Line :=
  let sk := regsReturnValue regs
  let shown := sockFilterAndDisplay config mem sk v.level v.name
  if ¬shown.1 then shown.2 else shown.2 ++ v.more

def kretprobeHookTcpV4DoRcv : Followed where
  level := 3
  name := "kprobe:tcp_v4_do_rcv"
  more _ _ := []
  after mem sk := sockCommonDisplay mem sk "kretprobe:tcp_v4_do_rcv" ++ [emptyLine]

def kretprobeHookTcpRcvStateProcess : Followed where
  level := 2
  name := "kprobe:tcp_rcv_state_process"
  more mem regs :=
    tcpSockDisplay mem (x86_64GetRegsArg regs 0) ++ tcpRecvSkbDisplay mem (x86_64GetRegsArg regs 1)
  after mem sk := sockCommonDisplay mem sk "kretprobe:tcp_rcv_state_process"

def kretprobeHookTcpV4SynRecvSock : Accepted := ⟨2, "kretprobe:tcp_v4_syn_recv_sock", []⟩

def kretprobeHookInetCskAccept : Accepted := ⟨2, "kretprobe:inet_csk_accept", [emptyLine]⟩

/-- The socket may be gone when `tcp_close` returns, and only its address is shown. -/
def kretprobeHookTcpClose : Followed where
  level := 2
  name := "kprobe:tcp_close"
  more _ _ := []
  after _ sk := [⟨"%-32s  sock: 0x%lx\n", [.str "kretprobe:tcp_close", .num sk]⟩, emptyLine]

def kretprobeHookTcpRcvEstablished : Followed where
  level := 3
  name := "kprobe:tcp_rcv_established"
  more mem regs :=
    tcpSockDisplay mem (x86_64GetRegsArg regs 0) ++ tcpRecvSkbDisplay mem (x86_64GetRegsArg regs 1)
  after mem sk :=
    sockCommonDisplay mem sk "kretprobe:tcp_rcv_established" ++ tcpSockDisplay mem sk

def kretprobeHookTcpRecvmsg : Followed where
  level := 3
  name := "kprobe:tcp_recvmsg"
  more mem regs := tcpSockDisplay mem (x86_64GetRegsArg regs 0)
  after mem sk :=
    sockCommonDisplay mem sk "kretprobe:tcp_recvmsg" ++ tcpSockDisplay mem sk ++ [emptyLine]

def kretprobeHookTcpSendmsg : Followed where
  level := 3
  name := "kprobe:tcp_sendmsg"
  more mem regs := tcpSockDisplay mem (x86_64GetRegsArg regs 0)
  after mem sk :=
    sockCommonDisplay mem sk "kretprobe:tcp_sendmsg" ++ tcpSockDisplay mem sk ++ [emptyLine]

def kretprobeHookTcpWriteXmit : Followed where
  level := 3
  name := "kprobe:tcp_write_xmit"
  more mem regs := tcpSockDisplay mem (x86_64GetRegsArg regs 0)
  after mem sk := sockCommonDisplay mem sk "kretprobe:tcp_write_xmit" ++ tcpSockDisplay mem sk

/-! ### The kretprobes -/

/-- A probe as the kernel sees it: at the entry the handler gets the registers and what the
instance holds, at the return the registers of that moment. -/
abbrev TcpProbe := CallTrace.Probe (Mem × PtRegs) (Mem × PtRegs) TcpCommonCtx Line

def Followed.probe (v : Followed) : TcpProbe where
  entry a ctx := v.entryHandler config a.1 a.2 ctx
  ret b ctx := v.handler b.1 b.2 ctx
  maxactive := 64

/-- Without `data_size` the instance holds nothing. -/
def Accepted.probe (v : Accepted) : TcpProbe where
  entry _ _ := (default, [])
  ret b ctx := v.handler config b.1 b.2 ctx
  maxactive := 64

inductive Symbol
  | tcpV4DoRcv
  | tcpRcvStateProcess
  | tcpV4SynRecvSock
  | inetCskAccept
  | tcpClose
  | tcpRcvEstablished
  | tcpRecvmsg
  | tcpSendmsg
  | tcpWriteXmit
deriving DecidableEq

/-- The tables `kretprobes` of the two files. -/
def kretprobes : Symbol → TcpProbe
  | .tcpV4DoRcv => kretprobeHookTcpV4DoRcv.probe config
  | .tcpRcvStateProcess => kretprobeHookTcpRcvStateProcess.probe config
  | .tcpV4SynRecvSock => kretprobeHookTcpV4SynRecvSock.probe config
  | .inetCskAccept => kretprobeHookInetCskAccept.probe config
  | .tcpClose => kretprobeHookTcpClose.probe config
  | .tcpRcvEstablished => kretprobeHookTcpRcvEstablished.probe config
  | .tcpRecvmsg => kretprobeHookTcpRecvmsg.probe config
  | .tcpSendmsg => kretprobeHookTcpSendmsg.probe config
  | .tcpWriteXmit => kretprobeHookTcpWriteXmit.probe config

/-! ### Entry and return -/

variable {config}

theorem sockFilter_iff (mem : Mem) (sk : ℕ) (funcLevel : ℤ) :
    sockFilter config mem sk funcLevel ↔
      sk ≠ 0 ∧ funcLevel ≤ traceLevel ∧
      (config.localPort = 0 ∨ (mem.sock sk).skNum = config.localPort) ∧
      (config.remotePort = 0 ∨ ntohs (mem.sock sk).skDport = config.remotePort) ∧
      ((mem.sock sk).skFamily = afInet → config.enableIpv4 ∧
        (config.localAddrIpv4 = 0 ∨ (mem.sock sk).skRcvSaddr = config.localAddrIpv4) ∧
        (config.remoteAddrIpv4 = 0 ∨ (mem.sock sk).skDaddr = config.remoteAddrIpv4)) ∧
      ((mem.sock sk).skFamily = afInet6 → config.enableIpv6) := by
  have hne : afInet ≠ afInet6 := by decide
  unfold sockFilter
  grind

/-- The configuration that the module starts from lets every socket pass. -/
theorem sockFilter_sockConfig (mem : Mem) {sk : ℕ} (hsk : sk ≠ 0) {funcLevel : ℤ}
    (hlevel : funcLevel ≤ traceLevel) : sockFilter sockConfig mem sk funcLevel := by
  rw [sockFilter_iff]
  exact ⟨hsk, hlevel, .inl rfl, .inl rfl, fun _ => ⟨rfl, .inl rfl, .inl rfl⟩, fun _ => rfl⟩

theorem Followed.entryHandler_eq (v : Followed) (mem : Mem) (regs : PtRegs)
    (ctx : TcpCommonCtx) :
    v.entryHandler config mem regs ctx =
      if sockFilter config mem (x86_64GetRegsArg regs 0) v.level then
        (⟨x86_64GetRegsArg regs 0⟩,
          sockCommonDisplay mem (x86_64GetRegsArg regs 0) v.name ++ v.more mem regs)
      else (⟨0⟩, []) := by
  by_cases hpass : sockFilter config mem (x86_64GetRegsArg regs 0) v.level
  · simp [entryHandler, sockFilterAndDisplay, hpass]
  · simp [entryHandler, sockFilterAndDisplay, hpass]

theorem Accepted.handler_eq (v : Accepted) (mem : Mem) (regs : PtRegs) (ctx : TcpCommonCtx) :
    v.handler config mem regs ctx =
      if sockFilter config mem (regsReturnValue regs) v.level then
        sockCommonDisplay mem (regsReturnValue regs) v.name ++ v.more
      else [] := by
  by_cases hpass : sockFilter config mem (regsReturnValue regs) v.level
  · simp [handler, sockFilterAndDisplay, hpass]
  · simp [handler, sockFilterAndDisplay, hpass]

theorem kretprobes_cases (h : Symbol) :
    (∃ v : Followed, kretprobes config h = v.probe config) ∨
      ∃ v : Accepted, kretprobes config h = v.probe config := by
  cases h
  case tcpV4SynRecvSock => exact .inr ⟨_, rfl⟩
  case inetCskAccept => exact .inr ⟨_, rfl⟩
  all_goals exact .inl ⟨_, rfl⟩

/-- The assignment of `NULL`. -/
theorem overwrites (h : Symbol) : (kretprobes config h).Overwrites := by
  rcases @kretprobes_cases config h with ⟨v, hv⟩ | ⟨v, hv⟩
  · rw [hv]
    intro a d d'
    show v.entryHandler config a.1 a.2 d = v.entryHandler config a.1 a.2 d'
    rw [v.entryHandler_eq, v.entryHandler_eq]
  · rw [hv]
    exact fun _ _ _ => rfl

/-- The call is followed: it found a free instance, and the filter let its socket pass when it
began. -/
def Followed.follows (config : SockFilterConfig) (v : Followed) (slot : Option ℕ) (mem : Mem)
    (regs : PtRegs) : Bool :=
  slot.isSome && sockFilter config mem (x86_64GetRegsArg regs 0) v.level

theorem Followed.entryLines_eq (v : Followed) (slot : Option ℕ) (mem : Mem) (regs : PtRegs) :
    (v.probe config).entryLines slot (mem, regs) =
      if v.follows config slot mem regs then
        sockCommonDisplay mem (x86_64GetRegsArg regs 0) v.name ++ v.more mem regs
      else [] := by
  cases slot with
  | none => rfl
  | some i =>
    show (v.entryHandler config mem regs default).2 = _
    rw [v.entryHandler_eq]
    by_cases hpass : sockFilter config mem (x86_64GetRegsArg regs 0) v.level
    · simp [follows, hpass]
    · simp [follows, hpass]

theorem Followed.retLines_eq (v : Followed) (slot : Option ℕ) (mem mem' : Mem)
    (regs regs' : PtRegs) :
    (v.probe config).retLines (mem', regs') ((v.probe config).leaves slot (mem, regs)) =
      if v.follows config slot mem regs then v.after mem' (x86_64GetRegsArg regs 0) else [] := by
  cases slot with
  | none => rfl
  | some i =>
    show v.handler mem' regs' (v.entryHandler config mem regs default).1 = _
    rw [v.entryHandler_eq]
    by_cases hpass : sockFilter config mem (x86_64GetRegsArg regs 0) v.level
    · -- a socket that passes is not `NULL`
      have hsk : x86_64GetRegsArg regs 0 ≠ 0 := ((sockFilter_iff _ _ _).mp hpass).1
      simp [follows, handler, hpass, hsk]
    · simp [follows, handler, hpass]

section Runs

variable {τ : Type*} [DecidableEq τ] {s s₁ s₂ s₃ : State Symbol τ TcpCommonCtx Line} {t : τ}
  {h : Symbol} {slot : Option ℕ} {mem mem' : Mem} {regs regs' : PtRegs}
  {es : List (Event Symbol τ (Mem × PtRegs) (Mem × PtRegs))}

theorem returns_follow_entries {v : Followed} (hv : kretprobes config h = v.probe config)
    (hs : (machine (kretprobes config)).Reachable s)
    (hcall : step (kretprobes config) s (.call t h slot (mem, regs)) = some s₁)
    (hrun : (machine (kretprobes config)).Run s₁ es s₂) (hes : Balanced t es)
    (hret : step (kretprobes config) s₂ (.ret t (mem', regs')) = some s₃) :
    s₁.log = s.log ++ (if v.follows config slot mem regs then
      sockCommonDisplay mem (x86_64GetRegsArg regs 0) v.name ++ v.more mem regs else []) ∧
    s₃.log = s₂.log ++ (if v.follows config slot mem regs then
      v.after mem' (x86_64GetRegsArg regs 0) else []) ∧
    (slot = none → ∀ i < 64, ∃ u, ⟨h, some i⟩ ∈ s.stack u) := by
  obtain ⟨hentry, hreturn⟩ := paired overwrites hs hcall hrun hes hret
  rw [hv, v.entryLines_eq] at hentry
  rw [hv, v.retLines_eq] at hreturn
  refine ⟨hentry, hreturn, ?_⟩
  rintro rfl i hi
  have hmax : i < (kretprobes config h).maxactive := by rwa [hv]
  exact missed hs hcall i hmax

/-- The two kretprobes without an entry show the socket that a call returns. -/
theorem returns_show_results {v : Accepted} (hv : kretprobes config h = v.probe config)
    (hs : (machine (kretprobes config)).Reachable s)
    (hcall : step (kretprobes config) s (.call t h slot (mem, regs)) = some s₁)
    (hrun : (machine (kretprobes config)).Run s₁ es s₂) (hes : Balanced t es)
    (hret : step (kretprobes config) s₂ (.ret t (mem', regs')) = some s₃) :
    s₁.log = s.log ∧
    s₃.log = s₂.log ++
      (if slot.isSome ∧ sockFilter config mem' (regsReturnValue regs') v.level then
        sockCommonDisplay mem' (regsReturnValue regs') v.name ++ v.more else []) := by
  obtain ⟨hentry, hreturn⟩ := paired overwrites hs hcall hrun hes hret
  rw [hv] at hentry hreturn
  cases slot with
  | none =>
    exact ⟨hentry.trans (List.append_nil _), hreturn⟩
  | some i =>
    refine ⟨hentry.trans (List.append_nil _), ?_⟩
    have hlines : (v.probe config).retLines (mem', regs')
        ((v.probe config).leaves (some i) (mem, regs)) = v.handler config mem' regs' default := rfl
    rw [hreturn, hlines, v.handler_eq]
    simp

end Runs

/-! A call whose socket the filter stops takes an instance that holds another socket. -/

def port80 : SockFilterConfig := initSockConfigFromParam sockConfig 80 0 1 1

def twoSocks : Mem where
  sock sk := { (default : Sock) with skNum := if sk = 1 then 80 else 81, skFamily := afInet }
  skb _ := default

def firstArg (sk : ℕ) : PtRegs := ⟨sk, 0, 0, 0, 0, 0, 0⟩

def loaded : State Symbol Bool TcpCommonCtx Line where
  data _ _ := default
  free _ := Finset.range 64
  stack _ := []
  log := []

/-- A call for the socket `sk` has begun. -/
def closing (s : State Symbol Bool TcpCommonCtx Line) (t : Bool) (sk : ℕ) :
    State Symbol Bool TcpCommonCtx Line :=
  s.take t .tcpClose 0
    (kretprobeHookTcpClose.entryHandler port80 twoSocks (firstArg sk) (s.data .tcpClose 0))

/-- The call has returned. -/
def closed (s : State Symbol Bool TcpCommonCtx Line) (t : Bool) :
    State Symbol Bool TcpCommonCtx Line :=
  s.release t .tcpClose 0 []
    (kretprobeHookTcpClose.handler twoSocks (firstArg 0) (s.data .tcpClose 0))

/-- The kernel has the instance back from the call for the first socket. -/
def returned : State Symbol Bool TcpCommonCtx Line := closed (closing loaded false 1) false

theorem returns_follow_entries_reused :
    (closing loaded false 1).log ≠ [] ∧ returned.data .tcpClose 0 = ⟨1⟩ ∧
      (closed (closing returned true 2) true).log = (closing returned true 2).log := by
  have hinit : loaded.Init (kretprobes port80) :=
    ⟨fun p => by cases p <;> rfl, fun _ => rfl, rfl⟩
  have hfirst : step (kretprobes port80) loaded
      (.call false .tcpClose (some 0) (twoSocks, firstArg 1)) = some (closing loaded false 1) :=
    step_call (Finset.mem_range.mpr (by omega)) _
  have hback : step (kretprobes port80) (closing loaded false 1)
      (.ret false (twoSocks, firstArg 0)) = some returned := step_ret rfl _
  have hs : (machine (kretprobes port80)).Reachable returned :=
    ((System.Reachable.of_init hinit).step hfirst).step hback
  have hcall : step (kretprobes port80) returned
      (.call true .tcpClose (some 0) (twoSocks, firstArg 2)) = some (closing returned true 2) :=
    step_call (Finset.mem_insert_self 0 _) _
  have hret : step (kretprobes port80) (closing returned true 2)
      (.ret true (twoSocks, firstArg 0)) = some (closed (closing returned true 2) true) :=
    step_ret rfl _
  have hlog :=
    (returns_follow_entries (v := kretprobeHookTcpClose) rfl hs hcall (.nil _) rfl hret).2.1
  have hstopped : ¬kretprobeHookTcpClose.follows port80 (some 0) twoSocks (firstArg 2) := by decide
  refine ⟨by decide, rfl, hlog.trans ?_⟩
  rw [if_neg hstopped]
  exact List.append_nil _

end CppProgramming.TcpTrace.Kretprobe
