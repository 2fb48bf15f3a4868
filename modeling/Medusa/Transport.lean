import Medusa.Lib.Lease
import Medusa.Outcome

/-! # Requests over pooled connections

`transport/tcp.go`: any number of `Send` calls to one address share a pool of idle connections, and the
other side serves each connection with a loop that reads a request, calls the handler and writes its
response.  Frames carry no request id.  A connection is two streams of bytes; reads and writes move one byte
at a time, and may fail at any byte (a timeout, or a connection that breaks).  A step that is not possible
changes nothing, so every interleaving is a list of steps.

* `Exchange`: how far an exchange is, on both sides and in between.
* `answered_own_request`: **a `Send` that returns without a transport error returns what the handler
  produced for its own request, and idle connections have no byte on the way.** -/

namespace Medusa

namespace Transport

/-! ### The two sides of a connection -/

/-- A request. -/
structure Request where
  type : ℕ
  payload : Bytes
deriving DecidableEq, Repr

/-- Where `serveConn` is: it has read some bytes of a request, is in the handler, has some bytes of the
response left to write, or has returned. -/
inductive Serving where
  | reading (got : Bytes)
  | handling (req : Request)
  | writing (rest : Bytes)
  | closed
deriving DecidableEq, Repr

/-- A connection: the bytes on the way to the server and to the client, whether the client has closed its
end, and the server's loop. -/
structure Conn where
  up : Bytes
  down : Bytes
  hungUp : Bool
  server : Serving
deriving DecidableEq, Repr

namespace Conn

/-- A connection that was just accepted. -/
def new : Conn := ⟨[], [], false, .reading []⟩

/-- The server reads a byte of a request. -/
def serve (c : Conn) : Conn :=
  match c.server, c.up with
  | .reading got, b :: up =>
    match readFrame (got ++ [b]) with
    | .more => { c with up := up, server := .reading (got ++ [b]) }
    | .tooLarge => { c with up := up, server := .closed }
    | .frame type payload => { c with up := up, server := .handling ⟨type, payload⟩ }
  | .reading _, [] => if c.hungUp then { c with server := .closed } else c
  | _, _ => c

theorem serve_cons {c : Conn} {got up : Bytes} {b : UInt8} (hserver : c.server = .reading got)
    (hup : c.up = b :: up) : c.serve = match readFrame (got ++ [b]) with
      | .more => { c with up := up, server := .reading (got ++ [b]) }
      | .tooLarge => { c with up := up, server := .closed }
      | .frame type payload => { c with up := up, server := .handling ⟨type, payload⟩ } := by
  unfold serve
  rw [hserver, hup]

/-- Without a byte of a request, the server waits. -/
theorem serve_waits {c : Conn} (hup : ∀ got, c.server = .reading got → c.up = [])
    (hopen : c.hungUp = false) : c.serve = c := by
  unfold serve
  cases hserver : c.server with
  | reading got => simp [hup got hserver, hopen]
  | _ => rfl

/-- The server writes a byte of a response. -/
def respond (c : Conn) : Conn :=
  match c.server with
  | .writing (b :: rest) =>
    { c with
      down := if c.hungUp then c.down else c.down ++ [b]
      server := if rest = [] then .reading [] else .writing rest }
  | _ => c

theorem respond_waits {c : Conn} (h : ∀ rest, c.server ≠ .writing rest) : c.respond = c := by
  unfold respond
  cases hserver : c.server with
  | writing rest => exact absurd hserver (h rest)
  | _ => rfl

/-- `serveConn` returns: a failed read or write, or the shutdown of its side. -/
def sever (c : Conn) : Conn := { c with server := .closed }

/-- The client writes a byte. -/
def write (c : Conn) (b : UInt8) : Conn :=
  if c.server = .closed then c else { c with up := c.up ++ [b] }

/-- The client closes its end. -/
def hangUp (c : Conn) : Conn := { c with hungUp := true }

end Conn

/-! ### Sends -/

/-- Where a `Send` is. -/
inductive Phase where
  | start
  | looking
  | polling
  | dialing
  | writing (k : ℕ) (rest : Bytes)
  | reading (k : ℕ) (got : Bytes)
  | putting (k : ℕ) (type : ℕ) (payload : Bytes)
  | done (r : Result)
deriving DecidableEq, Repr

/-- The connection the `Send` has. -/
def Phase.conn : Phase → Option ℕ
  | writing k _ => some k
  | reading k _ => some k
  | putting k _ _ => some k
  | _ => none

/-- What happened: a `Send` got a connection, the handler was called on a connection, a `Send` returned. -/
inductive Event where
  | took (i k : ℕ)
  | called (k : ℕ) (req : Request) (o : Outcome)
  | returned (i : ℕ) (r : Result)
deriving DecidableEq, Repr

/-- The sends, the connections dialled so far, the channel of idle connections (oldest first), whether the
transport is closed, and what happened (newest first). -/
structure Net where
  sends : ℕ → Phase
  conns : ℕ → Conn
  next : ℕ
  pool : List ℕ
  closed : Bool
  past : List Event

namespace Net

/-- Nothing has been sent. -/
def init : Net := ⟨fun _ => .start, fun _ => Conn.new.sever, 0, [], false, []⟩

/-- `maxPoolPerAddr`. -/
def maxPoolPerAddr : ℕ := 8

/-- The `Send` goes on. -/
def go (s : Net) (i : ℕ) (phase : Phase) : Net := { s with sends := Function.update s.sends i phase }

/-- The `Send` returns. -/
def finish (s : Net) (i : ℕ) (r : Result) : Net :=
  { s with sends := Function.update s.sends i (.done r), past := .returned i r :: s.past }

/-- A connection changes. -/
def setConn (s : Net) (k : ℕ) (c : Conn) : Net := { s with conns := Function.update s.conns k c }

section updates
variable (s : Net) (i : ℕ) (phase : Phase) (r : Result) (k : ℕ) (c : Conn)

theorem sends_go_self : (s.go i phase).sends i = phase := Function.update_self _ _ _

theorem sends_go_ne {j : ℕ} (h : j ≠ i) : (s.go i phase).sends j = s.sends j :=
  Function.update_of_ne h _ _

theorem sends_finish_self : (s.finish i r).sends i = .done r := Function.update_self _ _ _

theorem sends_finish_ne {j : ℕ} (h : j ≠ i) : (s.finish i r).sends j = s.sends j :=
  Function.update_of_ne h _ _

theorem conns_setConn_self : (s.setConn k c).conns k = c := Function.update_self _ _ _

theorem conns_setConn_ne {k' : ℕ} (h : k' ≠ k) : (s.setConn k c).conns k' = s.conns k' :=
  Function.update_of_ne h _ _

end updates

/-- `getConn` returns a connection, on which the `Send` writes its request. -/
def acquire (s : Net) (reqs : ℕ → Request) (i k : ℕ) : Net :=
  { s.go i (.writing k (frame (reqs i).type (reqs i).payload)) with past := .took i k :: s.past }

/-- A write or read failed: the `Send` closes the connection and returns the error. -/
def abandon (s : Net) (i k : ℕ) : Net := (s.setConn k (s.conns k).hangUp).finish i .failed

/-- The `Send` reads a byte of the response; the end of the stream is an error. -/
def read (s : Net) (i k : ℕ) (got : Bytes) : Net :=
  match (s.conns k).down with
  | b :: down =>
    let s' := s.setConn k { s.conns k with down := down }
    match readFrame (got ++ [b]) with
    | .more => s'.go i (.reading k (got ++ [b]))
    | .tooLarge => s'.abandon i k
    | .frame type payload => s'.go i (.putting k type payload)
  | [] => if (s.conns k).server = .closed then s.abandon i k else s

/-- `putConn`: back to the pool, unless the transport is closed or the pool is full. -/
def putConn (s : Net) (k : ℕ) : Net :=
  if s.closed ∨ maxPoolPerAddr ≤ s.pool.length then s.setConn k (s.conns k).hangUp
  else { s with pool := s.pool ++ [k] }

end Net

/-- A step: of the `Send` with a number, where `ok` says whether the call of the operating system succeeds
(`ctx` whether the context is cancelled); of the server on a connection; or of `Close`. -/
inductive Step where
  | ctx (i : ℕ) (cancelled : Bool)
  | look (i : ℕ)
  | poll (i : ℕ)
  | dial (i : ℕ) (ok : Bool)
  | write (i : ℕ) (ok : Bool)
  | read (i : ℕ) (ok : Bool)
  | put (i : ℕ)
  | serve (k : ℕ)
  | handle (k : ℕ) (o : Outcome)
  | respond (k : ℕ)
  | sever (k : ℕ)
  | close
  | drain
deriving DecidableEq, Repr

/-- One step, with the requests of the sends. -/
def step (reqs : ℕ → Request) (s : Net) : Step → Net
  | .ctx i cancelled =>
    match s.sends i with
    | .start => if cancelled then s.finish i .failed else s.go i .looking
    | _ => s
  | .look i =>
    -- under the lock; the channel is read after it
    match s.sends i with
    | .looking => if s.closed then s.finish i .failed else s.go i .polling
    | _ => s
  | .poll i =>
    match s.sends i, s.pool with
    | .polling, k :: pool => { s with pool := pool }.acquire reqs i k
    | .polling, [] => s.go i .dialing
    | _, _ => s
  | .dial i ok =>
    match s.sends i with
    | .dialing =>
      if ok then { s.setConn s.next Conn.new with next := s.next + 1 }.acquire reqs i s.next
      else s.finish i .failed
    | _ => s
  | .write i ok =>
    match s.sends i with
    | .writing k (b :: rest) =>
      if ok then (s.setConn k ((s.conns k).write b)).go i
        (if rest = [] then .reading k [] else .writing k rest)
      else s.abandon i k
    | _ => s
  | .read i ok =>
    match s.sends i with
    | .reading k got => if ok then s.read i k got else s.abandon i k
    | _ => s
  | .put i =>
    match s.sends i with
    | .putting k type payload => (s.putConn k).finish i (received type payload)
    | _ => s
  | .serve k => s.setConn k (s.conns k).serve
  | .handle k o =>
    match (s.conns k).server with
    | .handling req =>
      { s.setConn k { s.conns k with server := .writing (frame o.type o.payload) } with
        past := .called k req o :: s.past }
    | _ => s
  | .respond k => s.setConn k (s.conns k).respond
  | .sever k => s.setConn k (s.conns k).sever
  | .close => { s with closed := true }
  | .drain =>
    match s.closed, s.pool with
    | true, k :: pool => { s.setConn k (s.conns k).hangUp with pool := pool }
    | _, _ => s

/-- A run. -/
def run (reqs : ℕ → Request) (steps : List Step) : Net := steps.foldl (step reqs) Net.init

/-! ### Exchanges -/

/-- A message whose type and length a frame can carry. -/
def Fits (type : ℕ) (payload : Bytes) : Prop := type < 256 ∧ payload.length < 2 ^ 32

/-- The `Send` that got connection `k` last, and the calls of the handler on it since. -/
def window (k : ℕ) : List Event → Option (ℕ × List (Request × Outcome))
  | [] => none
  | .took i k' :: past => if k' = k then some (i, []) else window k past
  | .called k' req o :: past =>
    if k' = k then (window k past).map fun w => (w.1, (req, o) :: w.2) else window k past
  | .returned _ _ :: past => window k past

/-- No byte is on the way, and the server waits for a request or has returned. -/
structure Conn.Idle (c : Conn) : Prop where
  up : c.up = []
  down : c.down = []
  live : c.hungUp = false
  server : c.server = .reading [] ∨ c.server = .closed

/-- How far the exchange for `req` is.  The client has `toWrite` left of its request and `got` of the
response; the last argument has the calls of the handler. -/
inductive Exchange (req : Request) (toWrite got : Bytes) (c : Conn) : List (Request × Outcome) → Prop
  | asking (read : Bytes) (server : c.server = .reading read)
      (bytes : read ++ (c.up ++ toWrite) = frame req.type req.payload) (down : c.down = [])
      (nothing : got = []) : Exchange req toWrite got c []
  | handling (server : c.server = .handling req) (up : c.up = []) (written : toWrite = [])
      (down : c.down = []) (nothing : got = []) : Exchange req toWrite got c []
  | answering (o : Outcome) (pending : Bytes) (fits : Fits o.type o.payload)
      (server : c.server = .writing pending ∧ pending ≠ [] ∨ c.server = .reading [] ∧ pending = [] ∨
        c.server = .closed)
      (up : c.up = []) (written : toWrite = [])
      (bytes : got ++ (c.down ++ pending) = frame o.type o.payload) :
      Exchange req toWrite got c [(req, o)]
  | cut (server : c.server = .closed) (down : c.down = []) (nothing : got = []) :
      Exchange req toWrite got c []

namespace Exchange
variable {req : Request} {toWrite got : Bytes} {c : Conn} {calls : List (Request × Outcome)}

/-- The server reads a byte. -/
theorem serve (h : Exchange req toWrite got c calls) (hreq : Fits req.type req.payload)
    (hopen : c.hungUp = false) : Exchange req toWrite got c.serve calls := by
  cases h with
  | asking read server bytes down nothing =>
    cases hup : c.up with
    | nil =>
      rw [Conn.serve_waits (fun _ _ => hup) hopen]
      exact .asking read server bytes down nothing
    | cons b up =>
      have hbytes : (read ++ [b]) ++ (up ++ toWrite) = frame req.type req.payload := by
        rw [← bytes, hup]
        simp
      rw [Conn.serve_cons server hup]
      cases hread : readFrame (read ++ [b]) with
      | more => exact .asking (read ++ [b]) rfl hbytes down nothing
      | tooLarge => exact .cut rfl down nothing
      | frame type payload =>
        obtain ⟨hrest, rfl, rfl⟩ := readFrame_eq_frame hreq.1 hreq.2 hbytes hread
        obtain ⟨hnil, hwritten⟩ := List.append_eq_nil_iff.mp hrest
        exact .handling rfl hnil hwritten down nothing
  | handling server up written down nothing =>
    rw [Conn.serve_waits (fun _ _ => up) hopen]
    exact .handling server up written down nothing
  | answering o pending fits server up written bytes =>
    rw [Conn.serve_waits (fun _ _ => up) hopen]
    exact .answering o pending fits server up written bytes
  | cut server down nothing =>
    rw [Conn.serve_waits (fun _ hreading => by rw [server] at hreading; cases hreading) hopen]
    exact .cut server down nothing

/-- The handler returns. -/
theorem handle (h : Exchange req toWrite got c calls) {req' : Request}
    (hserver : c.server = .handling req') {o : Outcome} (ho : Fits o.type o.payload) :
    req' = req ∧ calls = [] ∧
      Exchange req toWrite got { c with server := .writing (frame o.type o.payload) } [(req, o)] := by
  cases h with
  | asking read server => rw [server] at hserver; cases hserver
  | handling server up written down nothing =>
    rw [server] at hserver
    cases hserver
    refine ⟨rfl, rfl, .answering o _ ho (.inl ⟨rfl, ?_⟩) up written ?_⟩
    · exact List.ne_nil_of_length_pos (by rw [frame_length, headerSize]; omega)
    · change got ++ (c.down ++ _) = _
      rw [nothing, down]
      rfl
  | answering o' pending fits server =>
    rcases server with ⟨server, -⟩ | ⟨server, -⟩ | server <;> rw [server] at hserver <;> cases hserver
  | cut server => rw [server] at hserver; cases hserver

/-- The server writes a byte. -/
theorem respond (h : Exchange req toWrite got c calls) (hopen : c.hungUp = false) :
    Exchange req toWrite got c.respond calls := by
  cases h with
  | answering o pending fits server up written bytes =>
    rcases server with ⟨server, hne⟩ | hserver
    · obtain ⟨b, rest, rfl⟩ := List.exists_cons_of_ne_nil hne
      unfold Conn.respond
      simp only [server, hopen]
      refine .answering o rest fits ?_ up written (by simpa using bytes)
      by_cases hrest : rest = []
      · exact .inr (.inl ⟨if_pos hrest, hrest⟩)
      · exact .inl ⟨if_neg hrest, hrest⟩
    · have hwaits : ∀ rest, c.server ≠ .writing rest := by
        intro rest heq
        rcases hserver with ⟨server, -⟩ | server <;> rw [server] at heq <;> cases heq
      rw [Conn.respond_waits hwaits]
      exact .answering o pending fits (.inr hserver) up written bytes
  | asking read server bytes down nothing =>
    rw [Conn.respond_waits (by rw [server]; exact fun _ => Serving.noConfusion)]
    exact .asking read server bytes down nothing
  | handling server up written down nothing =>
    rw [Conn.respond_waits (by rw [server]; exact fun _ => Serving.noConfusion)]
    exact .handling server up written down nothing
  | cut server down nothing =>
    rw [Conn.respond_waits (by rw [server]; exact fun _ => Serving.noConfusion)]
    exact .cut server down nothing

/-- The server's side goes away. -/
theorem sever (h : Exchange req toWrite got c calls) : Exchange req toWrite got c.sever calls := by
  cases h with
  | asking _ _ _ down nothing => exact .cut rfl down nothing
  | handling _ _ _ down nothing => exact .cut rfl down nothing
  | answering o pending fits _ up written bytes =>
    exact .answering o pending fits (.inr (.inr rfl)) up written bytes
  | cut _ down nothing => exact .cut rfl down nothing

/-- The client writes a byte. -/
theorem write {b : UInt8} (h : Exchange req (b :: toWrite) [] c calls) :
    Exchange req toWrite [] (c.write b) calls := by
  unfold Conn.write
  cases h with
  | asking read server bytes down _ =>
    rw [if_neg (by rw [server]; exact Serving.noConfusion)]
    exact .asking read server (by simpa using bytes) down rfl
  | handling _ _ written => cases written
  | answering _ _ _ _ _ written => cases written
  | cut server down _ =>
    rw [if_pos server]
    exact .cut server down rfl

/-- The client reads a byte. -/
theorem read {b : UInt8} {down : Bytes} (h : Exchange req [] got c calls) (hdown : c.down = b :: down) :
    Exchange req [] (got ++ [b]) { c with down := down } calls := by
  cases h with
  | asking _ _ _ hnil => rw [hnil] at hdown; cases hdown
  | handling _ _ _ hnil => rw [hnil] at hdown; cases hdown
  | answering o pending fits server up written bytes =>
    exact .answering o pending fits server up written (by rw [hdown] at bytes; simpa using bytes)
  | cut _ hnil => rw [hnil] at hdown; cases hdown

/-- The client has the response: it is that of the handler, and nothing is left on the connection. -/
theorem complete (h : Exchange req [] got c calls) (hopen : c.hungUp = false) {type : ℕ}
    {payload : Bytes} (hread : readFrame got = .frame type payload) :
    c.Idle ∧ ∃ o : Outcome, Fits o.type o.payload ∧ calls = [(req, o)] ∧ type = o.type ∧
      payload = o.payload := by
  cases h with
  | asking _ _ _ _ nothing => rw [nothing] at hread; cases hread
  | handling _ _ _ _ nothing => rw [nothing] at hread; cases hread
  | cut _ _ nothing => rw [nothing] at hread; cases hread
  | answering o pending fits server up _ bytes =>
    obtain ⟨hrest, rfl, rfl⟩ := readFrame_eq_frame fits.1 fits.2 bytes hread
    obtain ⟨hdown, hpending⟩ := List.append_eq_nil_iff.mp hrest
    refine ⟨⟨up, hdown, hopen, ?_⟩, o, fits, rfl, rfl, rfl⟩
    rcases server with ⟨-, hne⟩ | ⟨server, -⟩ | server
    · exact absurd hpending hne
    · exact .inl server
    · exact .inr server

end Exchange

/-! ### The invariant -/

/-- What a `Send` knows of its connection. -/
def Phase.Holds (req : Request) (c : Conn) (calls : List (Request × Outcome)) : Phase → Prop
  | writing _ rest => c.hungUp = false ∧ Exchange req rest [] c calls
  | reading _ got => c.hungUp = false ∧ Exchange req [] got c calls
  | putting _ type payload => c.Idle ∧ ∃ o : Outcome, Fits o.type o.payload ∧ calls = [(req, o)] ∧
      type = o.type ∧ payload = o.payload
  | _ => True

/-- A `Send` that returned just now failed; or the handler was called once on its connection since it got
it, with its own request, and the result is that of the handler. -/
def Answers (reqs : ℕ → Request) (i : ℕ) (r : Result) (past : List Event) : Prop :=
  r = .failed ∨ ∃ k o, window k past = some (i, [(reqs i, o)]) ∧ r = o.result

/-- Every `Send` that returned was answered. -/
def AllAnswered (reqs : ℕ → Request) : List Event → Prop
  | [] => True
  | .returned i r :: past => Answers reqs i r past ∧ AllAnswered reqs past
  | _ :: past => AllAnswered reqs past

section server
variable {req : Request} {c : Conn} {calls : List (Request × Outcome)} {phase : Phase}

theorem Conn.serve_hungUp (c : Conn) : c.serve.hungUp = c.hungUp := by
  unfold Conn.serve
  split
  · split <;> rfl
  · split <;> rfl
  · rfl

theorem Conn.respond_hungUp (c : Conn) : c.respond.hungUp = c.hungUp := by
  unfold Conn.respond
  split <;> rfl

theorem Conn.Idle.serve (h : c.Idle) : c.serve.Idle :=
  (Conn.serve_waits (fun _ _ => h.up) h.live).symm ▸ h

theorem Conn.Idle.respond (h : c.Idle) : c.respond.Idle := by
  have hwaits : ∀ rest, c.server ≠ .writing rest := by
    intro rest heq
    rcases h.server with hserver | hserver <;> rw [hserver] at heq <;> cases heq
  exact (Conn.respond_waits hwaits).symm ▸ h

theorem Conn.Idle.sever (h : c.Idle) : c.sever.Idle := ⟨h.up, h.down, h.live, .inr rfl⟩

theorem Phase.Holds.serve (h : phase.Holds req c calls) (hreq : Fits req.type req.payload) :
    phase.Holds req c.serve calls := by
  cases phase with
  | writing | reading => exact ⟨c.serve_hungUp.trans h.1, h.2.serve hreq h.1⟩
  | putting => exact ⟨h.1.serve, h.2⟩
  | _ => trivial

theorem Phase.Holds.respond (h : phase.Holds req c calls) : phase.Holds req c.respond calls := by
  cases phase with
  | writing | reading => exact ⟨c.respond_hungUp.trans h.1, h.2.respond h.1⟩
  | putting => exact ⟨h.1.respond, h.2⟩
  | _ => trivial

theorem Phase.Holds.sever (h : phase.Holds req c calls) : phase.Holds req c.sever calls := by
  cases phase with
  | writing | reading => exact ⟨h.1, h.2.sever⟩
  | putting => exact ⟨h.1.sever, h.2⟩
  | _ => trivial

/-- The handler returns on a connection that a `Send` has: it was called with the request of the `Send`. -/
theorem Phase.Holds.handle (h : phase.Holds req c calls) {k : ℕ} (hconn : phase.conn = some k)
    {req' : Request} (hserver : c.server = .handling req') {o : Outcome}
    (ho : Fits o.type o.payload) : req' = req ∧ calls = [] ∧
      phase.Holds req { c with server := .writing (frame o.type o.payload) } [(req, o)] := by
  cases phase with
  | writing | reading =>
    obtain ⟨hreq, hcalls, hexchange⟩ := h.2.handle hserver ho
    exact ⟨hreq, hcalls, h.1, hexchange⟩
  | putting =>
    rcases h.1.server with hidle | hidle <;> rw [hidle] at hserver <;> cases hserver
  | _ => cases hconn

end server

structure Inv (reqs : ℕ → Request) (s : Net) : Prop where
  leases : Lease.Leases (fun i => (s.sends i).conn) s.pool s.next
  idle : ∀ k ∈ s.pool, (s.conns k).Idle
  held : ∀ i k, (s.sends i).conn = some k → ∃ calls, window k s.past = some (i, calls) ∧
    (s.sends i).Holds (reqs i) (s.conns k) calls
  answered : AllAnswered reqs s.past
  done : ∀ i r, s.sends i = .done r → Event.returned i r ∈ s.past

/-- The connections the sends have, when one goes on. -/
theorem conn_update (sends : ℕ → Phase) (i : ℕ) (phase : Phase) :
    (fun j => (Function.update sends i phase j).conn) =
      Function.update (fun j => (sends j).conn) i phase.conn := by
  funext j
  by_cases hj : j = i
  · rw [hj, Function.update_self, Function.update_self]
  · rw [Function.update_of_ne hj, Function.update_of_ne hj]

namespace Inv
variable {reqs : ℕ → Request} {s : Net} {i k : ℕ} {c : Conn}

theorem init (reqs : ℕ → Request) : Inv reqs Net.init where
  leases := Lease.Leases.none _ fun _ => rfl
  idle k hk := by cases hk
  held i k hk := by cases hk
  answered := trivial
  done i r hr := by cases hr

/-- A `Send` goes on without a connection. -/
theorem go (h : Inv reqs s) (i : ℕ) {phase : Phase} (hconn : phase.conn = none)
    (hdone : ∀ r, phase ≠ .done r) : Inv reqs (s.go i phase) where
  leases := by
    have hleases := h.leases.drop i
    rwa [← hconn, ← conn_update] at hleases
  idle := h.idle
  held j k hj := by
    by_cases hij : j = i
    · rw [hij, s.sends_go_self, hconn] at hj
      cases hj
    · rw [s.sends_go_ne i phase hij] at hj ⊢
      exact h.held j k hj
  answered := h.answered
  done j r hj := by
    by_cases hij : j = i
    · rw [hij, s.sends_go_self] at hj
      exact absurd hj (hdone r)
    · rw [s.sends_go_ne i phase hij] at hj
      exact h.done j r hj

/-- A `Send` returns. -/
theorem finish (h : Inv reqs s) {r : Result} (hr : Answers reqs i r s.past) :
    Inv reqs (s.finish i r) where
  leases := by
    have hleases := h.leases.drop i
    rwa [← show (Phase.done r).conn = none from rfl, ← conn_update] at hleases
  idle := h.idle
  held j k hj := by
    by_cases hij : j = i
    · rw [hij, s.sends_finish_self] at hj
      cases hj
    · rw [s.sends_finish_ne i r hij] at hj ⊢
      exact h.held j k hj
  answered := ⟨hr, h.answered⟩
  done j r' hj := by
    by_cases hij : j = i
    · rw [hij, s.sends_finish_self] at hj
      cases hj
      exact hij ▸ List.mem_cons_self
    · rw [s.sends_finish_ne i r hij] at hj
      exact List.mem_cons_of_mem _ (h.done j r' hj)

/-- Nobody looks at a connection that is neither idle nor held. -/
theorem free (h : Inv reqs s) (hpool : k ∉ s.pool) (hfree : ∀ i, (s.sends i).conn ≠ some k) (c : Conn) :
    Inv reqs (s.setConn k c) where
  leases := h.leases
  idle k' hk' := by
    have hne : k' ≠ k := fun heq => hpool (heq ▸ hk')
    rw [s.conns_setConn_ne k c hne]
    exact h.idle k' hk'
  held j k' hj := by
    have hne : k' ≠ k := fun heq => hfree j (heq ▸ hj)
    rw [s.conns_setConn_ne k c hne]
    exact h.held j k' hj
  answered := h.answered
  done := h.done

/-- What a `Send` that returned had is held by nobody else. -/
theorem not_held (h : Inv reqs s) (hi : (s.sends i).conn = some k) (r : Result) (j : ℕ) :
    ((s.finish i r).sends j).conn ≠ some k := by
  intro hj
  by_cases hij : j = i
  · rw [hij, s.sends_finish_self] at hj
    cases hj
  · rw [s.sends_finish_ne i r hij] at hj
    exact hij (h.leases.alone j i k hj hi)

/-- A `Send` gives up its connection and fails. -/
theorem abandon (h : Inv reqs s) (hi : (s.sends i).conn = some k) : Inv reqs (s.abandon i k) :=
  (h.finish (Or.inl rfl)).free (h.leases.apart i k hi) (h.not_held hi .failed) (s.conns k).hangUp

/-- A `Send` and its connection go on. -/
theorem advance (h : Inv reqs s) (hi : (s.sends i).conn = some k) {phase : Phase}
    (hphase : phase.conn = some k) {c : Conn}
    (hstep : ∀ calls, (s.sends i).Holds (reqs i) (s.conns k) calls → phase.Holds (reqs i) c calls) :
    Inv reqs ((s.setConn k c).go i phase) where
  leases := by
    have hsame : (fun j => (((s.setConn k c).go i phase).sends j).conn) = fun j => (s.sends j).conn := by
      refine (conn_update s.sends i phase).trans ?_
      rw [hphase, ← hi]
      exact Function.update_eq_self i _
    rw [hsame]
    exact h.leases
  idle k' hk' := by
    have hne : k' ≠ k := fun heq => h.leases.apart i k hi (heq ▸ hk')
    exact (s.conns_setConn_ne k c hne).symm ▸ h.idle k' hk'
  held j k' hj := by
    by_cases hij : j = i
    · subst hij
      rw [Net.sends_go_self, hphase] at hj
      cases hj
      obtain ⟨calls, hwindow, hholds⟩ := h.held j k hi
      refine ⟨calls, hwindow, ?_⟩
      rw [Net.sends_go_self]
      exact (s.conns_setConn_self k c).symm ▸ hstep calls hholds
    · rw [Net.sends_go_ne _ i phase hij] at hj ⊢
      have hne : k' ≠ k := fun heq => hij (h.leases.alone j i k (heq ▸ hj) hi)
      exact (s.conns_setConn_ne k c hne).symm ▸ h.held j k' hj
  answered := h.answered
  done j r hj := by
    by_cases hij : j = i
    · rw [hij, Net.sends_go_self] at hj
      rw [hj] at hphase
      cases hphase
    · rw [Net.sends_go_ne _ i phase hij] at hj
      exact h.done j r hj

/-- A `Send` gets an idle connection that is not in the pool. -/
theorem acquire (h : Inv reqs s) (i : ℕ) (hlt : k < s.next) (hpool : k ∉ s.pool)
    (hfree : ∀ j, (s.sends j).conn ≠ some k) (hidle : (s.conns k).Idle) :
    Inv reqs (s.acquire reqs i k) where
  leases := by
    have hleases := h.leases.lease i hlt hpool hfree
    rwa [← show (Phase.writing k (frame (reqs i).type (reqs i).payload)).conn = some k from rfl,
      ← conn_update] at hleases
  idle := h.idle
  held j k' hj := by
    by_cases hij : j = i
    · subst hij
      change ((s.go j _).sends j).conn = _ at hj
      rw [Net.sends_go_self] at hj
      cases hj
      refine ⟨[], if_pos rfl, ?_⟩
      change ((s.go j _).sends j).Holds _ _ _
      rw [Net.sends_go_self]
      refine ⟨hidle.live, ?_⟩
      have hbytes : [] ++ ((s.conns k).up ++ frame (reqs j).type (reqs j).payload) =
          frame (reqs j).type (reqs j).payload := by
        rw [hidle.up]
        rfl
      rcases hidle.server with hserver | hserver
      · exact .asking [] hserver hbytes hidle.down rfl
      · exact .cut hserver hidle.down rfl
    · change ((s.go i _).sends j).conn = _ at hj
      rw [Net.sends_go_ne _ i _ hij] at hj
      obtain ⟨calls, hwindow, hholds⟩ := h.held j k' hj
      have hne : k ≠ k' := fun heq => hfree j (heq ▸ hj)
      refine ⟨calls, (if_neg hne).trans hwindow, ?_⟩
      change ((s.go i _).sends j).Holds _ _ _
      rwa [Net.sends_go_ne _ i _ hij]
  answered := h.answered
  done j r hj := by
    change (s.go i _).sends j = _ at hj
    by_cases hij : j = i
    · rw [hij, Net.sends_go_self] at hj
      cases hj
    · rw [Net.sends_go_ne _ i _ hij] at hj
      exact List.mem_cons_of_mem _ (h.done j r hj)

/-- A `Send` returns, and its connection to the pool. -/
theorem give (h : Inv reqs s) (hi : (s.sends i).conn = some k) (hidle : (s.conns k).Idle) {r : Result}
    (hr : Answers reqs i r s.past) : Inv reqs ({ s with pool := s.pool ++ [k] }.finish i r) :=
  { h.finish hr with
    leases := by
      have hleases := h.leases.give hi
      rwa [← show (Phase.done r).conn = none from rfl, ← conn_update] at hleases
    idle := fun k' hk' => by
      rcases List.mem_append.mp hk' with hk' | hk'
      · exact h.idle k' hk'
      · rw [List.mem_singleton.mp hk']
        exact hidle }

/-- The oldest connection leaves the pool. -/
theorem shift (h : Inv reqs s) {pool : List ℕ} (hpool : s.pool = k :: pool) :
    Inv reqs { s with pool := pool } :=
  { h with
    leases := by
      have hleases := h.leases
      rw [hpool] at hleases
      exact hleases.discard
    idle := fun k' hk' => h.idle k' (by rw [hpool]; exact List.mem_cons_of_mem _ hk') }

/-- A connection changes on the server's side. -/
theorem serve (h : Inv reqs s) (k : ℕ) {c : Conn} (hidle : (s.conns k).Idle → c.Idle)
    (hheld : ∀ j calls, (s.sends j).Holds (reqs j) (s.conns k) calls →
      (s.sends j).Holds (reqs j) c calls) : Inv reqs (s.setConn k c) where
  leases := h.leases
  idle k' hk' := by
    by_cases hk : k' = k
    · subst hk
      rw [s.conns_setConn_self]
      exact hidle (h.idle k' hk')
    · rw [s.conns_setConn_ne k c hk]
      exact h.idle k' hk'
  held j k' hj := by
    obtain ⟨calls, hwindow, hholds⟩ := h.held j k' hj
    refine ⟨calls, hwindow, ?_⟩
    by_cases hk : k' = k
    · subst hk
      rw [s.conns_setConn_self]
      exact hheld j calls hholds
    · rw [s.conns_setConn_ne k c hk]
      exact hholds
  answered := h.answered
  done := h.done

/-- The handler returns. -/
theorem called (h : Inv reqs s) {req : Request} (hserver : (s.conns k).server = .handling req)
    {o : Outcome} (ho : Fits o.type o.payload) :
    Inv reqs { s.setConn k { s.conns k with server := .writing (frame o.type o.payload) } with
      past := .called k req o :: s.past } where
  leases := h.leases
  idle k' hk' := by
    have hne : k' ≠ k := by
      rintro rfl
      rcases (h.idle k' hk').server with hidle | hidle <;> rw [hidle] at hserver <;> cases hserver
    exact (s.conns_setConn_ne k _ hne).symm ▸ h.idle k' hk'
  held j k' hj := by
    obtain ⟨calls, hwindow, hholds⟩ := h.held j k' hj
    by_cases hk : k' = k
    · subst hk
      obtain ⟨rfl, rfl, hnext⟩ := hholds.handle hj hserver ho
      refine ⟨[(reqs j, o)], ?_, (s.conns_setConn_self k' _).symm ▸ hnext⟩
      rw [window, if_pos rfl, hwindow]
      rfl
    · refine ⟨calls, ?_, (s.conns_setConn_ne k _ hk).symm ▸ hholds⟩
      rw [window, if_neg (Ne.symm hk), hwindow]
  answered := h.answered
  done j r hj := List.mem_cons_of_mem _ (h.done j r hj)

/-- `putConn`, and the `Send` returns. -/
theorem put (h : Inv reqs s) {type : ℕ} {payload : Bytes} (hi : s.sends i = .putting k type payload) :
    Inv reqs ((s.putConn k).finish i (received type payload)) := by
  have hconn : (s.sends i).conn = some k := by rw [hi]; rfl
  obtain ⟨calls, hwindow, hholds⟩ := h.held i k hconn
  rw [hi] at hholds
  obtain ⟨hidle, o, hfits, rfl, rfl, rfl⟩ := hholds
  have hr : Answers reqs i (received o.type o.payload) s.past :=
    .inr ⟨k, o, hwindow, received_eq hfits.2⟩
  unfold Net.putConn
  split
  · exact (h.finish hr).free (h.leases.apart i k hconn) (h.not_held hconn _) _
  · exact h.give hconn hidle hr

/-- The `Send` reads a byte. -/
theorem read (h : Inv reqs s) {got : Bytes} (hi : s.sends i = .reading k got) :
    Inv reqs (s.read i k got) := by
  have hconn : (s.sends i).conn = some k := by rw [hi]; rfl
  unfold Net.read
  cases hdown : (s.conns k).down with
  | nil =>
    dsimp only
    split
    · exact h.abandon hconn
    · exact h
  | cons b down =>
    have hread : ∀ calls, (s.sends i).Holds (reqs i) (s.conns k) calls →
        (s.conns k).hungUp = false ∧
          Exchange (reqs i) [] (got ++ [b]) { s.conns k with down := down } calls := by
      intro calls hholds
      rw [hi] at hholds
      exact ⟨hholds.1, hholds.2.read hdown⟩
    dsimp only
    split
    · exact h.advance hconn rfl hread
    · exact ((h.finish (Or.inl rfl)).free (h.leases.apart i k hconn) (h.not_held hconn .failed) _).free
        (h.leases.apart i k hconn) (h.not_held hconn .failed) _
    · next type payload hframe =>
      refine h.advance hconn rfl fun calls hholds => ?_
      exact (hread calls hholds).2.complete (hread calls hholds).1 hframe

/-- The `Send` writes a byte. -/
theorem write (h : Inv reqs s) {b : UInt8} {rest : Bytes} (hi : s.sends i = .writing k (b :: rest)) :
    Inv reqs ((s.setConn k ((s.conns k).write b)).go i
      (if rest = [] then .reading k [] else .writing k rest)) := by
  have hconn : (s.sends i).conn = some k := by rw [hi]; rfl
  have hwrite : ∀ calls, (s.sends i).Holds (reqs i) (s.conns k) calls →
      ((s.conns k).write b).hungUp = false ∧
        Exchange (reqs i) rest [] ((s.conns k).write b) calls := by
    intro calls hholds
    rw [hi] at hholds
    refine ⟨?_, hholds.2.write⟩
    unfold Conn.write
    split <;> exact hholds.1
  by_cases hrest : rest = []
  · subst hrest
    exact h.advance hconn rfl hwrite
  · rw [if_neg hrest]
    exact h.advance hconn rfl hwrite

/-- **Every step keeps the invariant.** -/
theorem step (hreqs : ∀ i, Fits (reqs i).type (reqs i).payload) (h : Inv reqs s) {e : Step}
    (he : ∀ k o, e = .handle k o → Fits o.type o.payload) : Inv reqs (step reqs s e) := by
  cases e with
  | ctx i cancelled =>
    simp only [Transport.step]
    split
    · split
      · exact h.finish (Or.inl rfl)
      · exact h.go i rfl fun _ => Phase.noConfusion
    · exact h
  | look i =>
    simp only [Transport.step]
    split
    · split
      · exact h.finish (Or.inl rfl)
      · exact h.go i rfl fun _ => Phase.noConfusion
    · exact h
  | poll i =>
    simp only [Transport.step]
    split
    · next k pool _ hpool =>
      obtain ⟨hlt, hrest, hfree⟩ := (hpool ▸ h.leases).head
      exact (h.shift hpool).acquire i hlt hrest hfree
        (h.idle k (by rw [hpool]; exact List.mem_cons_self))
    · exact h.go i rfl fun _ => Phase.noConfusion
    · exact h
  | dial i ok =>
    simp only [Transport.step]
    split
    · split
      · have hpool : s.next ∉ s.pool := fun hk => Nat.lt_irrefl _ (h.leases.idle_lt _ hk)
        have hfree : ∀ j, (s.sends j).conn ≠ some s.next :=
          fun j hj => Nat.lt_irrefl _ (h.leases.held_lt j _ hj)
        have hdial := h.free hpool hfree Conn.new
        have hgrow : Inv reqs { s.setConn s.next Conn.new with next := s.next + 1 } :=
          { hdial with leases := hdial.leases.grow }
        refine hgrow.acquire i (Nat.lt_succ_self _) hpool hfree ?_
        exact (s.conns_setConn_self s.next Conn.new).symm ▸ ⟨rfl, rfl, rfl, .inl rfl⟩
      · exact h.finish (Or.inl rfl)
    · exact h
  | write i ok =>
    simp only [Transport.step]
    split
    · next k b rest hi =>
      have hconn : (s.sends i).conn = some k := by rw [hi]; rfl
      split
      · exact h.write hi
      · exact h.abandon hconn
    · exact h
  | read i ok =>
    simp only [Transport.step]
    split
    · next k got hi =>
      have hconn : (s.sends i).conn = some k := by rw [hi]; rfl
      split
      · exact h.read hi
      · exact h.abandon hconn
    · exact h
  | put i =>
    simp only [Transport.step]
    split
    · next k type payload hi => exact h.put hi
    · exact h
  | serve k => exact h.serve k (fun hidle => hidle.serve) fun j _ hholds => hholds.serve (hreqs j)
  | handle k o =>
    simp only [Transport.step]
    split
    · next req hserver => exact h.called hserver (he k o rfl)
    · exact h
  | respond k => exact h.serve k (fun hidle => hidle.respond) fun _ _ hholds => hholds.respond
  | sever k => exact h.serve k (fun hidle => hidle.sever) fun _ _ hholds => hholds.sever
  | close => exact { h with }
  | drain =>
    simp only [Transport.step]
    split
    · next k pool _ hpool =>
      obtain ⟨-, hrest, hfree⟩ := (hpool ▸ h.leases).head
      exact (h.shift hpool).free hrest hfree _
    · exact h

/-- Every run keeps it. -/
theorem run (hreqs : ∀ i, Fits (reqs i).type (reqs i).payload) {steps : List Step}
    (hsteps : ∀ k o, .handle k o ∈ steps → Fits o.type o.payload) (h : Inv reqs s) :
    Inv reqs (steps.foldl (Transport.step reqs) s) := by
  induction steps generalizing s with
  | nil => exact h
  | cons e steps ih =>
    refine ih (fun k o hk => hsteps k o (List.mem_cons_of_mem _ hk)) (h.step hreqs fun k o he => ?_)
    exact hsteps k o (he ▸ List.mem_cons_self)

end Inv

theorem AllAnswered.split {reqs : ℕ → Request} {i : ℕ} {r : Result} {past : List Event}
    (h : AllAnswered reqs past) (hr : .returned i r ∈ past) :
    ∃ later earlier, past = later ++ .returned i r :: earlier ∧ Answers reqs i r earlier := by
  induction past with
  | nil => cases hr
  | cons ev past ih =>
    rcases List.mem_cons.mp hr with rfl | hr
    · exact ⟨[], past, rfl, h.1⟩
    · have hpast : AllAnswered reqs past := by
        cases ev with
        | returned => exact h.2
        | _ => exact h
      obtain ⟨later, earlier, rfl, hanswers⟩ := ih hpast hr
      exact ⟨ev :: later, earlier, rfl, hanswers⟩

/-- **Responses are never mismatched**: any number of sends to one address share the pool, handlers return
anything, and sends and connections fail at any byte.  When a `Send` returned without a transport error,
the handler had been called exactly once on its connection since it got it, with its own request, and it
returned what the handler produced; and every idle connection has no unread byte in either direction. -/
theorem answered_own_request (reqs : ℕ → Request)
    (hreqs : ∀ i, Fits (reqs i).type (reqs i).payload) (steps : List Step)
    (hsteps : ∀ k o, .handle k o ∈ steps → Fits o.type o.payload) :
    let s := run reqs steps
    (∀ i r, s.sends i = .done r → r ≠ .failed →
      ∃ later earlier k o, s.past = later ++ .returned i r :: earlier ∧
        window k earlier = some (i, [(reqs i, o)]) ∧ r = o.result) ∧
    ∀ k ∈ s.pool, (s.conns k).up = [] ∧ (s.conns k).down = [] := by
  have hinv : Inv reqs (run reqs steps) := (Inv.init reqs).run hreqs hsteps
  refine ⟨fun i r hr hne => ?_, fun k hk => ⟨(hinv.idle k hk).up, (hinv.idle k hk).down⟩⟩
  obtain ⟨later, earlier, hpast, hanswers⟩ := hinv.answered.split (hinv.done i r hr)
  obtain ⟨k, o, hwindow, hresult⟩ := hanswers.resolve_left hne
  exact ⟨later, earlier, k, o, hpast, hwindow, hresult⟩

/-- A `Send` takes a connection, or dials one, and runs to its end. -/
def exchange (i k : ℕ) (o : Outcome) : List Step :=
  [Step.ctx i false, Step.look i, Step.poll i, Step.dial i true] ++
    List.replicate 6 (Step.write i true) ++ List.replicate 6 (Step.serve k) ++ [Step.handle k o] ++
    List.replicate 10 (Step.respond k) ++ List.replicate 10 (Step.read i true) ++ [Step.put i]

/-- A request that tells its `Send`. -/
def numbered (i : ℕ) : Request := ⟨3, [UInt8.ofNat i]⟩

/-- A second `Send` on the connection of the first, and an error of its handler. -/
def reuse : List Step := exchange 0 0 (.reply 2 [7]) ++ exchange 1 0 (.error [120])

theorem answered_own_request_reuse :
    (run numbered reuse).sends 0 = .done (.response 2 [7]) ∧
    (run numbered reuse).sends 1 = .done (.remote ⟨1, [120]⟩) ∧
    (∃ later earlier k o,
      (run numbered reuse).past = later ++ .returned 1 (.remote ⟨1, [120]⟩) :: earlier ∧
        window k earlier = some (1, [(numbered 1, o)]) ∧ Result.remote ⟨1, [120]⟩ = o.result) ∧
    (run numbered reuse).pool = [0] ∧
    ((run numbered reuse).conns 0).up = [] ∧ ((run numbered reuse).conns 0).down = [] := by
  have hreqs : ∀ i, Fits (numbered i).type (numbered i).payload :=
    fun i => ⟨show 3 < 256 by decide, show 1 < 2 ^ 32 by decide⟩
  have hsteps : ∀ k o, .handle k o ∈ reuse → Fits o.type o.payload := by
    intro k o hk
    have ho : k = 0 ∧ o = .reply 2 [7] ∨ k = 0 ∧ o = .error [120] := by simpa [reuse, exchange] using hk
    rcases ho with ⟨-, rfl⟩ | ⟨-, rfl⟩ <;> exact ⟨by decide, by decide⟩
  obtain ⟨hsends, hidle⟩ := answered_own_request numbered hreqs reuse hsteps
  have hsecond : (run numbered reuse).sends 1 = .done (.remote ⟨1, [120]⟩) := by decide +kernel
  have hpool : (run numbered reuse).pool = [0] := by decide +kernel
  have hmem : 0 ∈ (run numbered reuse).pool := by rw [hpool]; exact List.mem_cons_self
  exact ⟨by decide +kernel, hsecond, hsends 1 _ hsecond (by decide), hpool, hidle 0 hmem⟩

end Transport

end Medusa
