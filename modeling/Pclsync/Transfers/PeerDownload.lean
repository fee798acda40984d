import Pclsync.Lib.Uses
import Pclsync.OpenFile.ModifyUpload

/-! Downloads from a peer in the local network: what `psync_p2p_check_download` takes, uses and gives back.

What each call inside comes to is part of the outcomes; the rest follows the labels of the source. -/
namespace Pclsync.Transfers.PeerDownload
open Lib.Held
open Lib.Held.Event (take give use)
open OpenFile (NetResult)

inductive Resource where
  /-- The list of `psync_list_ip_adapters`. -/
  | il
  /-- The array of the UDP sockets. -/
  | sockets
  | udp (i : ℕ)
  /-- `psync_apipool_get`. -/
  | api
  | res
  | token
  | tcp
deriving DecidableEq, Repr

/-- `resp.type`, and `bresp`. -/
inductive RespType where
  | nope | haveit | wait | unknown
deriving DecidableEq, Repr

inductive Family where
  | inet6 | inet | unknown
deriving DecidableEq, Repr

/-- A packet that `recvfrom` took in, from a peer with an address. -/
structure Response where
  /-- `resp.rand` is `pct1.rand`. -/
  ownRand : Bool
  /-- `resp.genhash` fits `resp.rand`. -/
  genhash : Bool
  type : RespType
  family : Family
deriving DecidableEq, Repr

/-- What the calls for an adapter come to. -/
structure Interface where
  created : Bool
  bound : Bool
  sent : Bool
  /-- `FD_ISSET`. -/
  ready : Bool
  /-- No response is an error or a short packet. -/
  response : Option Response
deriving DecidableEq, Repr

/-- What `psync_p2p_get_download_token` comes to. -/
inductive TokenOutcome where
  | noApi | noAnswer | refused | granted
deriving DecidableEq, Repr

structure Outcomes where
  p2psync : Bool
  interfaces : List Interface
  /-- What `select` returns. -/
  select : ℤ
  checkRsa : ℤ
  tokenOutcome : TokenOutcome
  socket : Bool
  connect : Bool
  /-- Of the packet, of the key and of the token. -/
  writePacket : Bool
  writeKey : Bool
  writeToken : Bool
  download : NetResult
deriving Repr

abbrev Trace := Used Resource

/-! ### The search for a peer -/

/-- The socket is kept in the array. -/
def Interface.stored (f : Interface) : Bool := f.created && f.bound && f.sent

def openSocket (i : ℕ) (f : Interface) : Trace :=
  use .il :: use .sockets :: use .il ::
    if f.created = false then []
    else take (.udp i) :: use (.udp i) :: use (.udp i) :: use .il :: use (.udp i) ::
      if f.bound = false then [give (.udp i)]
      else use .il :: use (.udp i) :: if f.sent then [use .sockets] else [give (.udp i)]

def openSockets : ℕ → List Interface → Trace
  | _, [] => [use .il]
  | i, f :: fs => openSocket i f ++ openSockets (i + 1) fs

/-- The sockets that `select` looks at. -/
def selectSockets : ℕ → List Interface → Trace
  | _, [] => []
  | i, f :: fs => (if f.stored then [use (.udp i)] else []) ++ selectSockets (i + 1) fs

def closeSockets : ℕ → List Interface → Trace
  | _, [] => [use .il]
  | i, f :: fs => use .il :: use .sockets :: ((if f.stored then [use .sockets, give (.udp i)] else []) ++ closeSockets (i + 1) fs)

/-- The response is from another client that knows the hash. -/
def Response.accepted (resp : Response) : Bool := !resp.ownRand && resp.genhash

/-- The loop over the sockets that are ready: `bresp` after it, and the address in a response that has the file. -/
def receive : ℕ → List Interface → RespType → Trace × RespType × Family
  | _, [], bresp => ([use .il], bresp, .unknown)
  | i, f :: fs, bresp =>
    if f.stored && f.ready then
      let received := [use .il, use .sockets, use .sockets, use (.udp i)]
      let next (bresp : RespType) := let (trace, found) := receive (i + 1) fs bresp; (received ++ trace, found)
      match f.response with
      | none => next bresp
      | some resp =>
        if resp.accepted = false then next bresp
        else if resp.type = .haveit then (received, .haveit, resp.family)
        else if resp.type = .wait ∧ bresp = .nope then next .wait
        else next bresp
    else
      let (trace, found) := receive (i + 1) fs bresp
      (use .il :: use .sockets :: trace, found)

/-- `psync_p2p_get_download_token` -/
def getDownloadToken : TokenOutcome → Trace × NetResult
  | .noApi => ([], .tempfail)
  | .noAnswer => ([take .api, use .api, give .api], .tempfail)
  | .refused => ([take .api, use .api, take .res, give .api, use .res, give .res], .permfail)
  | .granted => ([take .api, use .api, take .res, give .api, use .res, use .res, take .token, use .res, use .token, use .res, give .res], .ok)

/-! ### The labels -/

def errPerm2 : Trace × NetResult := ([], .permfail)

def errPerm3 : Trace × NetResult := (give .token :: errPerm2.1, errPerm2.2)

def errPerm (fs : List Interface) : Trace × NetResult :=
  (closeSockets 0 fs ++ give .il :: give .sockets :: errPerm2.1, errPerm2.2)

def errTemp2 : Trace × NetResult := ([], .tempfail)

def errTemp3 : Trace × NetResult := (give .tcp :: give .token :: errTemp2.1, errTemp2.2)

/-- Behind what was done. -/
def after (trace : Trace) (rest : Trace × NetResult) : Trace × NetResult := (trace ++ rest.1, rest.2)

/-- From the writes to the peer on. -/
def sendGet (o : Outcomes) : Trace × NetResult :=
  if o.writePacket = false then after [use .tcp] errTemp3
  else if o.writeKey = false then after [use .tcp, use .tcp] errTemp3
  else if o.writeToken = false then after [use .tcp, use .tcp, use .tcp, use .token] errTemp3
  else ([use .tcp, use .tcp, use .tcp, use .token, give .token, use .tcp, give .tcp], o.download)

/-- From the address of the peer on. -/
def connectPeer (o : Outcomes) (family : Family) : Trace × NetResult :=
  if family = .unknown then errPerm2
  else if o.socket = false then errPerm3
  else if o.connect = false then after [take .tcp, use .tcp] errPerm3
  else after [take .tcp, use .tcp] (sendGet o)

/-- From the end of the search on. -/
def askPeer (o : Outcomes) : RespType × Family → Trace × NetResult
  | (.haveit, family) =>
    if o.checkRsa ≠ 0 then errPerm2
    else
      let (trace, sret) := getDownloadToken o.tokenOutcome
      match sret with
      | .ok => after trace (connectPeer o family)
      | .tempfail => after trace errTemp2
      | .permfail => after trace errPerm2
  | (.wait, _) => errTemp2
  | (_, _) => errPerm2

/-- `psync_p2p_check_download` -/
def checkDownload (o : Outcomes) : Trace × NetResult :=
  if o.p2psync = false then ([], .permfail)
  else
    let opened := take .il :: use .il :: take .sockets :: openSockets 0 o.interfaces
    if o.interfaces.any Interface.stored = false then after opened (errPerm o.interfaces)
    else
      let selected := opened ++ selectSockets 0 o.interfaces
      if o.select ≤ 0 then after selected (errPerm o.interfaces)
      else
        let (received, found) := receive 0 o.interfaces .nope
        after (selected ++ received ++ closeSockets 0 o.interfaces ++ [give .il, give .sockets]) (askPeer o found)

/-! ### What goes wrong -/

/-- The adapter hears from a client that has the file. -/
def Interface.found (f : Interface) : Option Response :=
  if f.stored && f.ready then f.response.filter fun resp => resp.accepted && resp.type = .haveit else none

/-- The first client that says it has the file is of an unknown address family, or there is no connection to it. -/
def Fails (o : Outcomes) : Prop :=
  o.p2psync = true ∧ 0 < o.select ∧ o.checkRsa = 0 ∧ o.tokenOutcome = .granted ∧
    ∃ resp, o.interfaces.findSome? Interface.found = some resp ∧ (resp.family = .unknown ∨ o.socket = true ∧ o.connect = false)

/-! ### The sockets of the search -/

variable {held : Multiset Resource} {i : ℕ} {f : Interface} {fs : List Interface} {bresp : RespType} {o : Outcomes}

/-- The sockets in the array. -/
def udps : ℕ → List Interface → Multiset Resource
  | _, [] => 0
  | i, f :: fs => if f.stored then .udp i ::ₘ udps (i + 1) fs else udps (i + 1) fs

theorem moves_openSocket (hil : .il ∈ held) (hsockets : .sockets ∈ held) :
    moves held (openSocket i f) = some (if f.stored then .udp i ::ₘ held else held) := by
  have hudp : Resource.udp i ∈ .udp i ::ₘ held := Multiset.mem_cons_self _ _
  have hil' : Resource.il ∈ .udp i ::ₘ held := Multiset.mem_cons_of_mem hil
  have hsockets' : Resource.sockets ∈ .udp i ::ₘ held := Multiset.mem_cons_of_mem hsockets
  obtain ⟨created, bound, sent, ready, response⟩ := f
  rw [openSocket, moves_use hil, moves_use hsockets, moves_use hil]
  cases created with
  | false => rfl
  | true =>
    rw [if_neg nofun, moves_take, moves_use hudp, moves_use hudp, moves_use hil', moves_use hudp]
    cases bound with
    | false =>
      rw [if_pos rfl, moves_give hudp, Multiset.erase_cons_head]
      rfl
    | true =>
      rw [if_neg nofun, moves_use hil', moves_use hudp]
      cases sent with
      | false =>
        rw [if_neg nofun, moves_give hudp, Multiset.erase_cons_head]
        rfl
      | true =>
        rw [if_pos rfl, moves_use hsockets']
        rfl

theorem moves_openSockets (hil : .il ∈ held) (hsockets : .sockets ∈ held) :
    moves held (openSockets i fs) = some (udps i fs + held) := by
  induction fs generalizing i held with
  | nil =>
    rw [openSockets, moves_use hil, udps, Multiset.zero_add]
    rfl
  | cons f fs ih =>
    rw [openSockets, moves_append, moves_openSocket hil hsockets, Option.bind_some, udps]
    split_ifs
    · rw [ih (Multiset.mem_cons_of_mem hil) (Multiset.mem_cons_of_mem hsockets), Multiset.add_cons, Multiset.cons_add]
    · exact ih hil hsockets

theorem udps_head (hle : udps i (f :: fs) ≤ held) (hf : f.stored = true) : .udp i ∈ held := by
  rw [udps, if_pos hf] at hle
  exact Multiset.mem_of_le hle (Multiset.mem_cons_self _ _)

theorem udps_tail (hle : udps i (f :: fs) ≤ held) : udps (i + 1) fs ≤ held := by
  rw [udps] at hle
  split_ifs at hle
  · exact le_trans (Multiset.le_cons_self _ _) hle
  · exact hle

theorem moves_selectSockets (hle : udps i fs ≤ held) : moves held (selectSockets i fs) = some held := by
  induction fs generalizing i with
  | nil => rfl
  | cons f fs ih =>
    rw [selectSockets, moves_append]
    split_ifs with hf
    · rw [moves_use (udps_head hle hf)]
      exact ih (udps_tail hle)
    · exact ih (udps_tail hle)

theorem moves_receive (hil : .il ∈ held) (hsockets : .sockets ∈ held) (hle : udps i fs ≤ held) :
    moves held (receive i fs bresp).1 = some held := by
  induction fs generalizing i bresp with
  | nil =>
    rw [receive, moves_use hil]
    rfl
  | cons f fs ih =>
    have hrest : ∀ bresp, moves held (receive (i + 1) fs bresp).1 = some held := fun _ => ih (udps_tail hle)
    rw [receive]
    split_ifs with hready
    · have hudp := udps_head hle (Bool.and_eq_true_iff.mp hready).1
      have hreceived : moves held [use .il, use .sockets, use .sockets, use (.udp i)] = some held := by
        rw [moves_use hil, moves_use hsockets, moves_use hsockets, moves_use hudp]
        rfl
      have hnext : ∀ bresp, moves held ([use .il, use .sockets, use .sockets, use (.udp i)] ++ (receive (i + 1) fs bresp).1) = some held := by
        intro bresp
        rw [moves_append, hreceived]
        exact hrest bresp
      cases f.response with
      | none => exact hnext bresp
      | some resp =>
        dsimp only
        split_ifs
        · exact hnext bresp
        · exact hreceived
        · exact hnext .wait
        · exact hnext bresp
    · show moves held (use .il :: use .sockets :: (receive (i + 1) fs bresp).1) = some held
      rw [moves_use hil, moves_use hsockets]
      exact hrest bresp

theorem moves_closeSockets (hil : .il ∈ held) (hsockets : .sockets ∈ held) : moves (udps i fs + held) (closeSockets i fs) = some held := by
  induction fs generalizing i with
  | nil =>
    rw [udps, Multiset.zero_add, closeSockets, moves_use hil]
    rfl
  | cons f fs ih =>
    have hil' : Resource.il ∈ udps i (f :: fs) + held := Multiset.mem_add.mpr (.inr hil)
    have hsockets' : Resource.sockets ∈ udps i (f :: fs) + held := Multiset.mem_add.mpr (.inr hsockets)
    rw [closeSockets, moves_use hil', moves_use hsockets', moves_append]
    by_cases hf : f.stored
    · rw [if_pos hf, moves_use hsockets', udps, if_pos hf, Multiset.cons_add, moves_give (Multiset.mem_cons_self _ _),
        Multiset.erase_cons_head]
      exact ih
    · rw [if_neg hf, udps, if_neg hf]
      exact ih

/-- The loop ends at the first client that has the file. -/
theorem receive_found (hbresp : bresp ≠ .haveit) :
    match fs.findSome? Interface.found with
    | some resp => (receive i fs bresp).2 = (.haveit, resp.family)
    | none => (receive i fs bresp).2.1 ≠ .haveit := by
  induction fs generalizing i bresp with
  | nil => exact hbresp
  | cons f fs ih =>
    have hother (hnone : f.found = none) : ∀ b : RespType, b ≠ .haveit → match (f :: fs).findSome? Interface.found with
        | some resp => (receive (i + 1) fs b).2 = (.haveit, resp.family)
        | none => (receive (i + 1) fs b).2.1 ≠ .haveit := by
      intro b hb
      rw [List.findSome?_cons, hnone]
      exact ih hb
    rw [receive]
    split_ifs with hready
    · have hfound : f.found = f.response.filter fun resp => resp.accepted && resp.type = .haveit := if_pos hready
      cases hresponse : f.response with
      | none => exact hother (by rw [hfound, hresponse]; rfl) bresp hbresp
      | some resp =>
        dsimp only
        split_ifs with haccepted hhave hwait
        · exact hother (by rw [hfound, hresponse, Option.filter_some, haccepted]; rfl) bresp hbresp
        · have hsome : f.found = some resp := by
            rw [hfound, hresponse, Option.filter_some, (Bool.not_eq_false _).mp haccepted, hhave]
            rfl
          rw [List.findSome?_cons, hsome]
        · exact hother (by rw [hfound, hresponse, Option.filter_some, decide_eq_false hhave, Bool.and_false]; rfl) .wait (by decide)
        · exact hother (by rw [hfound, hresponse, Option.filter_some, decide_eq_false hhave, Bool.and_false]; rfl) bresp hbresp
    · exact hother (if_neg hready) bresp hbresp

/-! ### The whole -/

/-- What is left where nothing was held before. -/
theorem moves_askPeer_other {found : RespType × Family} (hfound : found.1 ≠ .haveit) : moves 0 (askPeer o found).1 = some 0 := by
  obtain ⟨type, family⟩ := found
  cases type with
  | haveit => exact absurd rfl hfound
  | nope => rfl
  | wait => rfl
  | unknown => rfl

theorem moves_sendGet : moves {.token, .tcp} (sendGet o).1 = some 0 := by
  rw [sendGet]
  split_ifs
  · decide
  · decide
  · decide
  · show moves {.token, .tcp} ([use .tcp, use .tcp, use .tcp, use .token, give .token, use .tcp, give .tcp] : Trace) = some 0
    decide

theorem moves_after {trace : Trace} {rest : Trace × NetResult} {held' : Multiset Resource} (htrace : moves held trace = some held') :
    moves held (after trace rest).1 = moves held' rest.1 := by
  show moves held (trace ++ rest.1) = _
  rw [moves_append, htrace, Option.bind_some]

theorem moves_connectPeer {family : Family} :
    moves {.token} (connectPeer o family).1 = some 0 ↔ ¬ (family = .unknown ∨ o.socket = true ∧ o.connect = false) := by
  have hconnect : moves {.token} ([take .tcp, use .tcp] : Trace) = some {.token, .tcp} := by decide
  rw [connectPeer]
  split_ifs with hfamily hsocket hfail
  · exact iff_of_false (by decide) (not_not.mpr (.inl hfamily))
  · refine iff_of_true (by decide) ?_
    rw [hsocket]
    simp [hfamily]
  · exact iff_of_false (by decide) (not_not.mpr (.inr ⟨(Bool.not_eq_false _).mp hsocket, hfail⟩))
  · rw [moves_after hconnect]
    refine iff_of_true moves_sendGet ?_
    simp [hfamily, hfail]

theorem moves_askPeer {family : Family} : moves 0 (askPeer o (.haveit, family)).1 = some 0 ↔
    ¬ (o.checkRsa = 0 ∧ o.tokenOutcome = .granted ∧ (family = .unknown ∨ o.socket = true ∧ o.connect = false)) := by
  rw [askPeer]
  split_ifs with hrsa
  · exact iff_of_true rfl fun h => hrsa h.1
  · cases htoken : o.tokenOutcome with
    | granted =>
      have hgranted : moves 0 (getDownloadToken .granted).1 = some {.token} := by decide
      show moves 0 (after (getDownloadToken .granted).1 (connectPeer o family)).1 = some 0 ↔ _
      rw [moves_after hgranted, moves_connectPeer]
      simp [not_not.mp hrsa]
    | noApi =>
      have hreleased : moves 0 (after (getDownloadToken .noApi).1 errTemp2).1 = some 0 := by decide
      exact iff_of_true hreleased (by simp)
    | noAnswer =>
      have hreleased : moves 0 (after (getDownloadToken .noAnswer).1 errTemp2).1 = some 0 := by decide
      exact iff_of_true hreleased (by simp)
    | refused =>
      have hreleased : moves 0 (after (getDownloadToken .refused).1 errPerm2).1 = some 0 := by decide
      exact iff_of_true hreleased (by simp)

theorem moves_opened (fs : List Interface) :
    moves 0 (take .il :: use .il :: take .sockets :: openSockets 0 fs) = some (udps 0 fs + {.sockets, .il}) := by
  rw [moves_take, moves_use (Multiset.mem_cons_self _ _), moves_take]
  exact moves_openSockets (Multiset.mem_cons_of_mem (Multiset.mem_cons_self _ _)) (Multiset.mem_cons_self _ _)

theorem moves_closed (fs : List Interface) : moves (udps 0 fs + {.sockets, .il}) (closeSockets 0 fs ++ [give .il, give .sockets]) = some 0 := by
  rw [moves_append, moves_closeSockets (by decide) (by decide), Option.bind_some]
  decide

theorem moves_selected (fs : List Interface) :
    moves 0 (take .il :: use .il :: take .sockets :: openSockets 0 fs ++ selectSockets 0 fs) = some (udps 0 fs + {.sockets, .il}) := by
  rw [moves_append, moves_opened, Option.bind_some]
  exact moves_selectSockets (Multiset.le_add_right _ _)

theorem moves_searched (fs : List Interface) :
    moves 0 (take .il :: use .il :: take .sockets :: openSockets 0 fs ++ selectSockets 0 fs ++ (receive 0 fs .nope).1 ++ closeSockets 0 fs ++
      [give .il, give .sockets]) = some 0 := by
  rw [List.append_assoc, moves_append, moves_append, moves_selected, Option.bind_some, moves_receive _ _ (Multiset.le_add_right _ _), Option.bind_some]
  · exact moves_closed fs
  · exact Multiset.mem_add.mpr (.inr (by decide))
  · exact Multiset.mem_add.mpr (.inr (by decide))

/-- A client can only be heard from on a socket in the array. -/
theorem stored_of_found {resp : Response} (hfound : fs.findSome? Interface.found = some resp) : fs.any Interface.stored = true := by
  obtain ⟨f, hf, hresp⟩ := List.exists_of_findSome?_eq_some hfound
  rw [Interface.found] at hresp
  split_ifs at hresp with hready
  exact List.any_eq_true.mpr ⟨f, hf, (Bool.and_eq_true_iff.mp hready).1⟩

/-- A download gives back what it takes, and uses only what it has, exactly where its connection to the peer does not fail. -/
theorem check_download_proper (o : Outcomes) : Proper (checkDownload o).1 ↔ ¬ Fails o := by
  rw [proper_iff_moves, checkDownload]
  split_ifs with hp2p hstored hselect
  · exact iff_of_true rfl fun h => nomatch hp2p.symm.trans h.1
  · rw [moves_after (moves_opened _)]
    refine iff_of_true (moves_closed _) ?_
    rintro ⟨-, -, -, -, resp, hresp, -⟩
    exact nomatch hstored.symm.trans (stored_of_found hresp)
  · rw [moves_after (moves_selected _)]
    exact iff_of_true (moves_closed _) fun h => absurd h.2.1 (not_lt.mpr hselect)
  · rw [moves_after (moves_searched _)]
    have hfound := @receive_found 0 o.interfaces .nope (by decide)
    cases hresp : o.interfaces.findSome? Interface.found with
    | none =>
      rw [hresp] at hfound
      refine iff_of_true (moves_askPeer_other hfound) ?_
      rintro ⟨-, -, -, -, resp, hsome, -⟩
      exact nomatch hresp.symm.trans hsome
    | some resp =>
      rw [hresp] at hfound
      rw [hfound, moves_askPeer, not_iff_not]
      constructor
      · rintro ⟨hrsa, htoken, hends⟩
        exact ⟨(Bool.not_eq_false _).mp hp2p, not_le.mp hselect, hrsa, htoken, resp, hresp, hends⟩
      · rintro ⟨-, -, hrsa, htoken, resp', hresp', hends⟩
        obtain rfl := Option.some.inj (hresp.symm.trans hresp')
        exact ⟨hrsa, htoken, hends⟩

/-- One adapter, on which a client answers that has the file, and then refuses the connection. -/
def refusing : Outcomes where
  p2psync := true
  interfaces := [⟨true, true, true, true, some ⟨false, true, .haveit, .inet⟩⟩]
  select := 1
  checkRsa := 0
  tokenOutcome := .granted
  socket := true
  connect := false
  writePacket := true
  writeKey := true
  writeToken := true
  download := .ok

/-- The TCP socket is left open. -/
theorem refusing_leaks : ¬ Proper (checkDownload refusing).1 := fun hproper => absurd (hproper.balanced.settled .tcp) (by decide)

end Pclsync.Transfers.PeerDownload
