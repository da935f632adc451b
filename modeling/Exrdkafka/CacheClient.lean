import Exrdkafka.Term
import Mathlib.Logic.Function.Basic

/-!
# The client cache

`Exrdkafka.CacheClient` keeps the reference and the process of every client in one ETS table, under
the client id. The table outlives the processes that write to it.
-/

namespace Exrdkafka.CacheClient

/-- What the table holds for a client. -/
structure Entry where
  clientRef : Term
  clientPid : ℕ
  deriving DecidableEq

/-- The table. -/
abbrev Table := String → Option Entry

/-- `CacheClient.create` -/
def create : Table := fun _ => none

/-- `CacheClient.set` -/
def set (t : Table) (clientId : String) (clientRef : Term) (clientPid : ℕ) : Table :=
  Function.update t clientId (some ⟨clientRef, clientPid⟩)

/-- `CacheClient.get`; `none` is `:undefined`. -/
def get (t : Table) (clientId : String) : Option Entry := t clientId

@[simp] theorem get_set_self (t : Table) (clientId : String) (clientRef : Term) (clientPid : ℕ) :
    get (set t clientId clientRef clientPid) clientId = some ⟨clientRef, clientPid⟩ :=
  Function.update_self ..

theorem get_set_of_ne (t : Table) {clientId other : String} (clientRef : Term) (clientPid : ℕ)
    (h : other ≠ clientId) : get (set t clientId clientRef clientPid) other = get t other :=
  Function.update_of_ne h ..

/-- A table with one producer in it. -/
def sampleTable : Table := set create "producer" (.ref 0) 1

end Exrdkafka.CacheClient
