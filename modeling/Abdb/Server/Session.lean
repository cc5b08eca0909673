/-
# Transactions and sessions

`src/transaction/mod.rs` and `src/session.rs`.  A session takes one statement of text at a time; BEGIN takes
a transaction from the manager that all sessions share.  `commit` and `rollback` of the manager are
`todo!()`, so a session panics on them in a transaction.  A statement that is not about transactions is
parsed, and does nothing yet.

The manager's counters are atomic; `begin` reads the timestamp after it has taken its id, and nothing
changes the timestamp.
-/

import Abdb.Parser.Command

namespace Abdb

/-- `DbError`, without the errors that no session gives. -/
inductive DbError
  | parse (e : ParseError)
  | tooManyStatements
  | emptyStatement
  | transactionAlreadyInProgress
  | notInTransaction
deriving DecidableEq, Repr

/-- The display of an error; `parseText` is that of a parse error's text. -/
def DbError.toString (parseText : ParseError → String) : DbError → String
  | parse e => "parse error: " ++ parseText e
  | tooManyStatements => "cannot execute multiple statements at once"
  | emptyStatement => "no statement to execute"
  | transactionAlreadyInProgress => "transaction already in progress"
  | notInTransaction => "not in transaction"

/-- `TxnState`. -/
inductive TxnState
  | active | committed | aborted
deriving DecidableEq, Repr

/-- `Transaction`. -/
structure Transaction where
  txnId : UInt64
  readTs : UInt64
  commitTs : Option UInt64
  state : TxnState
  isolationLevel : Ast.IsolationLevel

/-- `Transaction::new`. -/
def Transaction.new (txnId readTs : UInt64) (isolationLevel : Ast.IsolationLevel) : Transaction :=
  ⟨txnId, readTs, none, .active, isolationLevel⟩

/-- `TransactionManager`. -/
structure TransactionManager where
  nextTxnId : UInt64
  currentTs : UInt64

namespace TransactionManager

/-- `new`. -/
def new : TransactionManager := ⟨1, 0⟩

/-- `begin`: the counter wraps around. -/
def begin (tm : TransactionManager) (level : Ast.IsolationLevel) : TransactionManager × Transaction :=
  ({ tm with nextTxnId := tm.nextTxnId + 1 }, .new tm.nextTxnId tm.currentTs level)

/-- `commit`, which panics. -/
def commit (_tm : TransactionManager) (_txn : Transaction) : Option (Except DbError Unit) := none

/-- `rollback`, which panics. -/
def rollback (_tm : TransactionManager) (_txn : Transaction) : Option (Except DbError Unit) := none

end TransactionManager

/-- `Session`, without what it shares with others. -/
structure Session where
  sessionId : UInt64
  currentTxn : Option Transaction
  sessionIsolationLevel : Ast.IsolationLevel
  nextTxnIsolationLevel : Option Ast.IsolationLevel
  nextOid : OId

namespace Session

/-- `new`, with the id that the counter gives. -/
def new (sessionId : UInt64) : Session := ⟨sessionId, none, .repeatableRead, none, 1⟩

/-- `execute_sql_in_txn`. -/
def executeSqlInTxn (s : Session) (_stmt : Ast.Command) : Session × Except DbError String := (s, .ok "")

/-- The end of the current transaction, by `commit` or `rollback`; `none` where the code panics. -/
def endTxn (tm : TransactionManager) (s : Session)
    (finish : TransactionManager → Transaction → Option (Except DbError Unit)) (reply : String) :
    Option (Session × Except DbError String) :=
  match s.currentTxn with
  | none => some (s, .error .notInTransaction)
  | some txn =>
    match finish tm txn with
    | none => none
    | some (.error e) => some (s, .error e)
    | some (.ok _) => some ({ s with currentTxn := none }, .ok reply)

/-- One statement of `execute_sql`; `none` where the code panics. -/
def execute (tm : TransactionManager) (s : Session) :
    Ast.Command → Option (TransactionManager × Session × Except DbError String)
  | .beginTransaction level =>
    if s.currentTxn.isSome then some (tm, s, .error .transactionAlreadyInProgress)
    else
      let (tm, txn) := tm.begin level
      some (tm, { s with currentTxn := some txn }, .ok "BEGIN")
  | .commit => (endTxn tm s TransactionManager.commit "COMMIT").map fun r => (tm, r)
  | .rollback => (endTxn tm s TransactionManager.rollback "ROLLBACK").map fun r => (tm, r)
  | other => some (tm, executeSqlInTxn s other)

/-- `execute_sql`. -/
def executeSql (parse : String → ParseResult (List Ast.Command)) (tm : TransactionManager) (s : Session)
    (sql : String) : Option (TransactionManager × Session × Except DbError String) :=
  match parse sql with
  | .error e => some (tm, s, .error (.parse e))
  | .ok [stmt] => execute tm s stmt
  | .ok [] => some (tm, s, .error .emptyStatement)
  | .ok _ => some (tm, s, .error .tooManyStatements)

end Session
end Abdb
