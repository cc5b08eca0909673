/-
# The server and its clients

`TcpServer::listen` of `src/server/tcp.rs`: each connection has a task with a session of its own, which
reads lines, executes what is not blank and writes the reply back.  The tasks share the transaction manager
and the counter of sessions, and their lines come in any order.  A task ends at the end of its input, on an
error of the socket, and on a panic, which the others do not notice.

What a client sees depends on its own lines only (`server_isolated`): the server with all its sessions is as
many clients' automata (`Client.step`), which know of a session only whether it is in a transaction, and on
which isolation level.  The transactions that are open at one time have different ids, and are all active, with
timestamp 0 (`Server.Sound`).
-/

import Abdb.Lib.Agents
import Abdb.Server.Session

namespace Abdb

open Lib

/-- `str::trim`. -/
def trim (s : String) : String :=
  String.ofList (((s.toList.dropWhile Parser.isWhitespace).reverse.dropWhile Parser.isWhitespace).reverse)

/-- What comes for the task of a connection: the connection, a line, or the end of either. -/
inductive ClientEvent
  | connect
  | line (text : String)
  | close
deriving DecidableEq, Repr

/-- What a task does. -/
inductive ClientOutput
  | nothing
  | reply (text : String)
  | panicked
deriving DecidableEq, Repr

/-- The server: the manager, `SESSION_COUNTER`, and the sessions of the tasks, by the address of the client. -/
structure Server (Addr : Type) where
  manager : TransactionManager
  sessionCounter : UInt64
  sessions : Addr → Option Session

namespace Server

variable {Addr : Type} [DecidableEq Addr] (parseText : ParseError → String)
  (parse : String → ParseResult (List Ast.Command))

/-- No client is connected. -/
def new : Server Addr := ⟨.new, 1, fun _ => none⟩

/-- The text that goes back to the client. -/
def replyText : Except DbError String → String
  | .ok res => res
  | .error e => e.toString parseText

/-- One step of `listen` and of its tasks. -/
def step (server : Server Addr) (addr : Addr) (event : ClientEvent) : Server Addr × ClientOutput :=
  match server.sessions addr, event with
  | none, .connect => ({ server with
      sessionCounter := server.sessionCounter + 1
      sessions := Function.update server.sessions addr (some (.new server.sessionCounter)) }, .nothing)
  | some session, .line text =>
    let sql := trim text
    if sql = "" then (server, .nothing)
    else
      match session.executeSql parse server.manager sql with
      | none => ({ server with sessions := Function.update server.sessions addr none }, .panicked)
      | some (manager, session, r) => ({ server with
          manager := manager
          sessions := Function.update server.sessions addr (some session) }, .reply (replyText parseText r))
  | some _, .close => ({ server with sessions := Function.update server.sessions addr none }, .nothing)
  | _, _ => (server, .nothing)

end Server

/-! ### Clients alone -/

namespace Client

variable (parseText : ParseError → String) (parse : String → ParseResult (List Ast.Command))

/-- What a client knows of its session: there is none, or it is in a transaction or not. -/
abbrev View := Option (Option Ast.IsolationLevel)

/-- A statement, in a session that is in a transaction or not. -/
def execute (txn : Option Ast.IsolationLevel) : Ast.Command → View × ClientOutput
  | .beginTransaction level =>
    match txn with
    | none => (some (some level), .reply "BEGIN")
    | some level => (some (some level), .reply "transaction already in progress")
  | .commit | .rollback =>
    match txn with
    | none => (some none, .reply "not in transaction")
    | some _ => (none, .panicked)
  | _ => (some txn, .reply "")

/-- A text that is one statement, or is not. -/
def executeSql (txn : Option Ast.IsolationLevel) (sql : String) : View × ClientOutput :=
  match parse sql with
  | .error e => (some txn, .reply ("parse error: " ++ parseText e))
  | .ok [] => (some txn, .reply "no statement to execute")
  | .ok [stmt] => execute txn stmt
  | .ok _ => (some txn, .reply "cannot execute multiple statements at once")

/-- One step of a client without others. -/
def step : View → ClientEvent → View × ClientOutput
  | none, .connect => (some none, .nothing)
  | some txn, .line text => if trim text = "" then (some txn, .nothing) else executeSql parseText parse txn (trim text)
  | some _, .close => (none, .nothing)
  | view, _ => (view, .nothing)

end Client

namespace Server

variable {Addr : Type} [DecidableEq Addr] {parseText : ParseError → String}
  {parse : String → ParseResult (List Ast.Command)} {server server' : Server Addr} {addr : Addr}

/-- What a client knows of its session. -/
def view (server : Server Addr) (addr : Addr) : Client.View :=
  (server.sessions addr).map fun s => s.currentTxn.map (·.isolationLevel)

/-- **A statement does in a session what it does alone.** -/
theorem execute_eq (tm : TransactionManager) (s : Session) (stmt : Ast.Command) :
    ((s.execute tm stmt).map fun r => r.2.1.currentTxn.map (·.isolationLevel),
      ((s.execute tm stmt).map fun r => ClientOutput.reply (replyText parseText r.2.2)).getD .panicked) =
        Client.execute (s.currentTxn.map (·.isolationLevel)) stmt := by
  cases htxn : s.currentTxn with
  | none =>
    cases stmt <;>
      simp [Session.execute, Session.endTxn, Session.executeSqlInTxn, Client.execute, htxn, replyText,
        DbError.toString, TransactionManager.begin, Transaction.new]
  | some txn =>
    cases stmt <;>
      simp [Session.execute, Session.endTxn, Session.executeSqlInTxn, Client.execute, htxn, replyText,
        DbError.toString, TransactionManager.commit, TransactionManager.rollback]

/-- So does a text. -/
theorem executeSql_eq (tm : TransactionManager) (s : Session) (sql : String) :
    ((s.executeSql parse tm sql).map fun r => r.2.1.currentTxn.map (·.isolationLevel),
      ((s.executeSql parse tm sql).map fun r => ClientOutput.reply (replyText parseText r.2.2)).getD .panicked) =
        Client.executeSql parseText parse (s.currentTxn.map (·.isolationLevel)) sql := by
  rw [Session.executeSql, Client.executeSql]
  rcases parse sql with e | stmts
  · rfl
  · rcases stmts with _ | ⟨stmt, _ | ⟨second, further⟩⟩
    · rfl
    · exact execute_eq tm s stmt
    · rfl

/-- **A step of a client** shows in its own view only, and is the step that it makes alone. -/
theorem separates : Separates (step parseText parse : Server Addr → Addr → ClientEvent → _) view
    (Client.step parseText parse) where
  own server addr event := by
    cases hsession : server.sessions addr with
    | none => cases event <;> simp [step, view, Client.step, hsession, Session.new]
    | some session =>
      cases event with
      | connect => simp [step, view, Client.step, hsession]
      | close => simp [step, view, Client.step, hsession]
      | line text =>
        have heq : _ = Client.executeSql parseText parse _ _ := executeSql_eq server.manager session (trim text)
        have hview : view server addr = some (session.currentTxn.map (·.isolationLevel)) := by
          rw [view, hsession, Option.map_some]
        simp only [step, hsession, hview, Client.step]
        split_ifs
        · rw [hview]
        · rw [← heq]
          cases session.executeSql parse server.manager (trim text) with
          | none => simp [view]
          | some r => simp [view]
  others server addr event other h := by
    cases hsession : server.sessions addr with
    | none => cases event <;> simp [step, view, hsession, h]
    | some session =>
      cases event with
      | connect => simp [step, view, hsession]
      | close => simp [step, view, hsession, h]
      | line text =>
        simp only [step, hsession]
        split_ifs
        · rfl
        · cases session.executeSql parse server.manager (trim text) with
          | none => simp [view, h]
          | some r => simp [view, h]

/-! ### Identifiers -/

/-- The transactions and the sessions have the numbers of their beginnings, which were for these clients in
this order. -/
structure Numbered (begun connected : List Addr) (server : Server Addr) : Prop where
  manager : server.manager = ⟨UInt64.ofNat (begun.length + 1), 0⟩
  counter : server.sessionCounter = UInt64.ofNat (connected.length + 1)
  txns : ∀ {addr s t}, server.sessions addr = some s → s.currentTxn = some t →
    ∃ n, begun[n]? = some addr ∧ t = .new (UInt64.ofNat (n + 1)) 0 t.isolationLevel
  sessions : ∀ {addr s}, server.sessions addr = some s →
    ∃ n, connected[n]? = some addr ∧ s.sessionId = UInt64.ofNat (n + 1)

variable {begun connected : List Addr}

omit [DecidableEq Addr] in
theorem numbered_new : Numbered [] [] (new : Server Addr) where
  manager := rfl
  counter := rfl
  txns := by rintro addr s t ⟨⟩
  sessions := by rintro addr s ⟨⟩

omit [DecidableEq Addr] in
theorem getElem?_append_singleton {l : List Addr} {n : ℕ} {a b : Addr} (h : l[n]? = some a) :
    (l ++ [b])[n]? = some a := by
  rw [List.getElem?_append_left (List.getElem?_eq_some_iff.1 h).1, h]

omit [DecidableEq Addr] in
theorem ofNat_length_succ (l : List Addr) (a : Addr) :
    UInt64.ofNat ((l ++ [a]).length + 1) = UInt64.ofNat (l.length + 1) + 1 := by
  rw [List.length_append, List.length_singleton, UInt64.ofNat_add]
  rfl

/-- What a session becomes by a statement: it is as before, or has begun a transaction. -/
theorem execute_cases {tm tm' : TransactionManager} {s s' : Session} {stmt : Ast.Command}
    {r : Except DbError String} (h : s.execute tm stmt = some (tm', s', r)) :
    (tm' = tm ∧ s' = s) ∨
      ∃ level, tm' = (tm.begin level).1 ∧ s' = { s with currentTxn := some (tm.begin level).2 } := by
  cases stmt with
  | beginTransaction level =>
    rw [Session.execute] at h
    split_ifs at h
    · cases h
      exact Or.inl ⟨rfl, rfl⟩
    · cases h
      exact Or.inr ⟨level, rfl, rfl⟩
  | commit =>
    rw [Session.execute, Session.endTxn] at h
    cases htxn : s.currentTxn with
    | none =>
      rw [htxn] at h
      cases h
      exact Or.inl ⟨rfl, rfl⟩
    | some txn =>
      rw [htxn] at h
      cases h
  | rollback =>
    rw [Session.execute, Session.endTxn] at h
    cases htxn : s.currentTxn with
    | none =>
      rw [htxn] at h
      cases h
      exact Or.inl ⟨rfl, rfl⟩
    | some txn =>
      rw [htxn] at h
      cases h
  | createTable | createIndex | insert | basic | explain =>
    cases h
    exact Or.inl ⟨rfl, rfl⟩

theorem executeSql_cases {tm tm' : TransactionManager} {s s' : Session} {sql : String}
    {r : Except DbError String} (h : s.executeSql parse tm sql = some (tm', s', r)) :
    (tm' = tm ∧ s' = s) ∨
      ∃ level, tm' = (tm.begin level).1 ∧ s' = { s with currentTxn := some (tm.begin level).2 } := by
  rw [Session.executeSql] at h
  rcases hparse : parse sql with e | stmts
  · rw [hparse] at h
    cases h
    exact Or.inl ⟨rfl, rfl⟩
  · rw [hparse] at h
    rcases stmts with _ | ⟨stmt, _ | ⟨second, further⟩⟩
    · cases h
      exact Or.inl ⟨rfl, rfl⟩
    · exact execute_cases h
    · cases h
      exact Or.inl ⟨rfl, rfl⟩

/-- A session ends. -/
theorem Numbered.remove (h : Numbered begun connected server) (addr : Addr) :
    Numbered begun connected { server with sessions := Function.update server.sessions addr none } where
  manager := h.manager
  counter := h.counter
  txns := by
    intro a s t hs ht
    dsimp only at hs
    by_cases ha : a = addr
    · rw [ha, Function.update_self] at hs
      cases hs
    · rw [Function.update_of_ne ha] at hs
      exact h.txns hs ht
  sessions := by
    intro a s hs
    dsimp only at hs
    by_cases ha : a = addr
    · rw [ha, Function.update_self] at hs
      cases hs
    · rw [Function.update_of_ne ha] at hs
      exact h.sessions hs

/-- A client connects. -/
theorem Numbered.connect (h : Numbered begun connected server) (addr : Addr) :
    Numbered begun (connected ++ [addr]) { server with
      sessionCounter := server.sessionCounter + 1
      sessions := Function.update server.sessions addr (some (.new server.sessionCounter)) } where
  manager := h.manager
  counter := by rw [ofNat_length_succ, ← h.counter]
  txns := by
    intro a s t hs ht
    dsimp only at hs
    by_cases ha : a = addr
    · rw [ha, Function.update_self] at hs
      cases hs
      cases ht
    · rw [Function.update_of_ne ha] at hs
      exact h.txns hs ht
  sessions := by
    intro a s hs
    dsimp only at hs
    by_cases ha : a = addr
    · rw [ha, Function.update_self] at hs
      cases hs
      refine ⟨connected.length, ?_, h.counter⟩
      rw [ha, List.getElem?_concat_length]
    · rw [Function.update_of_ne ha] at hs
      obtain ⟨n, hn, hid⟩ := h.sessions hs
      exact ⟨n, getElem?_append_singleton hn, hid⟩

/-- A session begins a transaction. -/
theorem Numbered.begin (h : Numbered begun connected server) {session : Session}
    (hsession : server.sessions addr = some session) (level : Ast.IsolationLevel) :
    Numbered (begun ++ [addr]) connected { server with
      manager := (server.manager.begin level).1
      sessions := Function.update server.sessions addr
        (some { session with currentTxn := some (server.manager.begin level).2 }) } where
  manager := by rw [ofNat_length_succ, h.manager]; rfl
  counter := h.counter
  txns := by
    intro a s t hs ht
    dsimp only at hs
    by_cases ha : a = addr
    · rw [ha, Function.update_self] at hs
      cases hs
      cases ht
      refine ⟨begun.length, ?_, ?_⟩
      · rw [ha, List.getElem?_concat_length]
      · rw [h.manager]
        rfl
    · rw [Function.update_of_ne ha] at hs
      obtain ⟨n, hn, hid⟩ := h.txns hs ht
      exact ⟨n, getElem?_append_singleton hn, hid⟩
  sessions := by
    intro a s hs
    dsimp only at hs
    by_cases ha : a = addr
    · rw [ha, Function.update_self] at hs
      cases hs
      rw [ha]
      obtain ⟨n, hn, hid⟩ := h.sessions hsession
      exact ⟨n, hn, hid⟩
    · rw [Function.update_of_ne ha] at hs
      exact h.sessions hs

/-- **Every step numbers what it begins.** -/
theorem Numbered.step (h : Numbered begun connected server) (event : ClientEvent) :
    ∃ begun' connected', Numbered begun' connected' (step parseText parse server addr event).1 ∧
      begun'.length + connected'.length ≤ begun.length + connected.length + 1 := by
  have hkept : ∃ begun' connected', Numbered begun' connected' server ∧
      begun'.length + connected'.length ≤ begun.length + connected.length + 1 :=
    ⟨begun, connected, h, Nat.le_succ _⟩
  cases hsession : server.sessions addr with
  | none =>
    cases event with
    | connect =>
      refine ⟨begun, connected ++ [addr], ?_, by simp [Nat.add_assoc]⟩
      simp only [Server.step, hsession]
      exact h.connect addr
    | line text => simpa only [Server.step, hsession] using hkept
    | close => simpa only [Server.step, hsession] using hkept
  | some session =>
    cases event with
    | connect => simpa only [Server.step, hsession] using hkept
    | close =>
      refine ⟨begun, connected, ?_, Nat.le_succ _⟩
      simp only [Server.step, hsession]
      exact h.remove addr
    | line text =>
      simp only [Server.step, hsession]
      split_ifs
      · exact hkept
      · cases hexec : session.executeSql parse server.manager (trim text) with
        | none => exact ⟨begun, connected, h.remove addr, Nat.le_succ _⟩
        | some r =>
          obtain ⟨manager, session', r⟩ := r
          rcases executeSql_cases hexec with ⟨rfl, rfl⟩ | ⟨level, rfl, rfl⟩
          · have hsame : Function.update server.sessions addr (some session') = server.sessions := by
              rw [← hsession, Function.update_eq_self]
            refine ⟨begun, connected, ?_, Nat.le_succ _⟩
            dsimp only
            rw [hsame]
            exact h
          · refine ⟨begun ++ [addr], connected, h.begin hsession level, ?_⟩
            rw [List.length_append, List.length_singleton]
            omega

theorem Numbered.run (h : Numbered begun connected server) (events : List (Addr × ClientEvent)) :
    ∃ begun' connected', Numbered begun' connected' (runAgents (Server.step parseText parse) server events).1 ∧
      begun'.length + connected'.length ≤ begun.length + connected.length + events.length := by
  induction events generalizing begun connected server with
  | nil => exact ⟨begun, connected, h, le_rfl⟩
  | cons event events ih =>
    obtain ⟨addr, event⟩ := event
    obtain ⟨begun₁, connected₁, h₁, hle₁⟩ := h.step event
    obtain ⟨begun₂, connected₂, h₂, hle₂⟩ := ih h₁
    refine ⟨begun₂, connected₂, h₂, hle₂.trans ?_⟩
    rw [List.length_cons]
    omega

/-- Numbers below 2^64 are different in 64 bits. -/
theorem ofNat_succ_injective {m n : ℕ} (hm : m + 1 < 2 ^ 64) (hn : n + 1 < 2 ^ 64)
    (h : UInt64.ofNat (m + 1) = UInt64.ofNat (n + 1)) : m = n := by
  have := congrArg UInt64.toNat h
  rw [UInt64.toNat_ofNat', UInt64.toNat_ofNat', Nat.mod_eq_of_lt hm, Nat.mod_eq_of_lt hn] at this
  exact Nat.succ.inj this

/-- **The open transactions and the sessions are told apart**, and a transaction that is open is as it was
begun. -/
structure Sound (server : Server Addr) : Prop where
  txns : ∀ {a b s s' t t'}, server.sessions a = some s → server.sessions b = some s' → s.currentTxn = some t →
    s'.currentTxn = some t' → t.txnId = t'.txnId → a = b
  sessions : ∀ {a b s s'}, server.sessions a = some s → server.sessions b = some s' →
    s.sessionId = s'.sessionId → a = b
  active : ∀ {a s t}, server.sessions a = some s → s.currentTxn = some t →
    t = .new t.txnId 0 t.isolationLevel

omit [DecidableEq Addr] in
theorem Numbered.sound (h : Numbered begun connected server) (hbegun : begun.length < 2 ^ 64)
    (hconnected : connected.length < 2 ^ 64) : server.Sound where
  txns := by
    intro a b s s' t t' hs hs' ht ht' hid
    obtain ⟨n, hn, heq⟩ := h.txns hs ht
    obtain ⟨n', hn', heq'⟩ := h.txns hs' ht'
    rw [heq, heq'] at hid
    have hlt := (List.getElem?_eq_some_iff.1 hn).1
    have hlt' := (List.getElem?_eq_some_iff.1 hn').1
    obtain rfl := ofNat_succ_injective (by omega) (by omega) hid
    exact Option.some.inj (hn.symm.trans hn')
  sessions := by
    intro a b s s' hs hs' hid
    obtain ⟨n, hn, heq⟩ := h.sessions hs
    obtain ⟨n', hn', heq'⟩ := h.sessions hs'
    rw [heq, heq'] at hid
    have hlt := (List.getElem?_eq_some_iff.1 hn).1
    have hlt' := (List.getElem?_eq_some_iff.1 hn').1
    obtain rfl := ofNat_succ_injective (by omega) (by omega) hid
    exact Option.some.inj (hn.symm.trans hn')
  active := by
    intro a s t hs ht
    obtain ⟨n, -, heq⟩ := h.txns hs ht
    rw [heq]
    rfl

/-- **Clients do not disturb each other.**  In whatever order the connections, lines and ends of any clients
come, each client gets the replies that it would get alone; and while fewer than 2^64 events have come, the
open transactions have different ids, and so have the sessions. -/
theorem server_isolated (toLowercase : String → String) (parseSql : String → Except String (List Sq.Command))
    (events : List (Addr × ClientEvent)) (hlen : events.length < 2 ^ 64) :
    (∀ addr, ownOf addr (runAgents (Server.step parseText (Parser.parse toLowercase parseSql)) new events).2 =
      (runSpec (Client.step parseText (Parser.parse toLowercase parseSql)) none (ownOf addr events)).2) ∧
    (runAgents (Server.step parseText (Parser.parse toLowercase parseSql)) new events).1.Sound := by
  refine ⟨fun addr => (separates.run addr events new).2, ?_⟩
  obtain ⟨begun, connected, hnumbered, hle⟩ := numbered_new.run events
  rw [List.length_nil] at hle
  exact hnumbered.sound (by omega) (by omega)

/-- A parser of BEGIN and COMMIT. -/
def beginOrCommit (sql : String) : Except String (List Sq.Command) :=
  if sql = "BEGIN" then .ok [.startTransaction ⟨[], none, [], none⟩]
  else if sql = "COMMIT" then .ok [.commit]
  else .error "expected BEGIN or COMMIT"

/-- One client begins a transaction, and another is in none. -/
theorem server_isolated_two :
    let events : List (ℕ × ClientEvent) := [(1, .connect), (2, .connect), (1, .line "BEGIN\n"), (2, .line "COMMIT\n"),
      (1, .line "BEGIN\n")]
    let server := runAgents (Server.step (fun _ => "") (Parser.parse String.toLower beginOrCommit)) new events
    ownOf 1 server.2 = [.nothing, .reply "BEGIN", .reply "transaction already in progress"] ∧
      ownOf 2 server.2 = [.nothing, .reply "not in transaction"] ∧ server.1.Sound := by
  intro events server
  obtain ⟨hreplies, hsound⟩ := server_isolated String.toLower beginOrCommit events (by decide)
  exact ⟨(hreplies 1).trans (by decide), (hreplies 2).trans (by decide), hsound⟩

end Server
end Abdb
