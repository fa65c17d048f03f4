import NodeMonitor.Messages
import NodeMonitor.Runs
import NodeMonitor.UnorderedMaps
import Mathlib.Data.Finset.Card

/-!
The relay between agents and managers. `SetMonitorInfo` stores the message under
the name inside it; `GetMonitorInfo` takes no key and answers with the element at
the beginning of the hash map. Both hold the mutex, so a run is a sequence of
whole requests. The iteration order of the map is left open throughout.
-/

namespace NodeMonitor.Relay

open Messages KeyedMaps Runs UnorderedMaps

variable (U : UnorderedMap String MonitorInfo)

def setMonitorInfo (s : U.State) (request : MonitorInfo) : U.State :=
  U.set s request.name request

/-- The response is untouched while nothing is stored; the status is OK either way. -/
def getMonitorInfo (s : U.State) (response : MonitorInfo) : MonitorInfo :=
  match U.first s with
  | none => response
  | some (_, info) => info

inductive Request
  | set (info : MonitorInfo)
  | get

def serve (s : U.State) : Request → U.State
  | .set info => setMonitorInfo U s info
  | .get => s

/-- A `GetMonitorInfo` request is answered into a fresh message. -/
def respond (s : U.State) : Request → Option MonitorInfo
  | .set _ => none
  | .get => some (getMonitorInfo U s MonitorInfo.default)

/-- The messages sent back over a run, in order. -/
def responses (s : U.State) (requests : List Request) : List MonitorInfo :=
  (visits (serve U) s requests).filterMap (fun v => respond U v.1 v.2)

def Request.sent : Request → Option MonitorInfo
  | .set info => some info
  | .get => none

/-- Reads leave the store alone. -/
theorem foldl_serve (s : U.State) (requests : List Request) :
    requests.foldl (serve U) s =
      (requests.filterMap Request.sent).foldl (setMonitorInfo U) s := by
  induction requests generalizing s with
  | nil => rfl
  | cons r rest ih =>
    rw [List.foldl_cons, ih (serve U s r)]
    cases r with
    | set info => rfl
    | get => rfl

/-- The store holds the latest message set under each name, whatever was read. -/
theorem find_run (requests : List Request) (name : String) :
    U.find (requests.foldl (serve U) U.clear) name =
      latest MonitorInfo.name name (requests.filterMap Request.sent) := by
  have hcontents := congrFun
    (U.find_foldl_set MonitorInfo.name id U.clear (requests.filterMap Request.sent)) name
  rw [U.find_clear, assignAll_empty_apply, Option.map_id, id] at hcontents
  rw [foldl_serve]
  exact hcontents

/-- Once something was set, a read answers with the latest message set under some name. -/
theorem getMonitorInfo_run (requests : List Request) (response : MonitorInfo)
    (h : requests.filterMap Request.sent ≠ []) :
    ∃ info, getMonitorInfo U (requests.foldl (serve U) U.clear) response = info ∧
      latest MonitorInfo.name info.name (requests.filterMap Request.sent) = some info := by
  obtain ⟨sent, hsent⟩ := List.exists_mem_of_ne_nil _ h
  have hstored : (U.find (requests.foldl (serve U) U.clear) sent.name).isSome := by
    rw [find_run]
    cases hlatest : latest MonitorInfo.name sent.name (requests.filterMap Request.sent) with
    | none => exact absurd rfl ((latest_eq_none_iff _ _ _).mp hlatest sent hsent)
    | some info => rfl
  obtain ⟨name, info, hfirst⟩ := U.exists_first _ _ hstored
  have hfind := U.first_find _ _ _ hfirst
  rw [find_run] at hfind
  have hname : info.name = name := (latest_mem _ hfind).2
  refine ⟨info, ?_, by rw [hname]; exact hfind⟩
  rw [getMonitorInfo, hfirst]

/-- Before anything was set a read leaves the response as it was. -/
theorem getMonitorInfo_clear (requests : List Request) (response : MonitorInfo)
    (h : requests.filterMap Request.sent = []) :
    getMonitorInfo U (requests.foldl (serve U) U.clear) response = response := by
  cases hfirst : U.first (requests.foldl (serve U) U.clear) with
  | none => rw [getMonitorInfo, hfirst]
  | some entry =>
    have hfind := U.first_find _ entry.1 entry.2 hfirst
    rw [find_run, h] at hfind
    simp at hfind

/-- Reads in a row leave the store alone, so they are all answered alike. -/
theorem responses_replicate_get (s : U.State) (k : ℕ) :
    responses U s (List.replicate k .get) =
      List.replicate k (getMonitorInfo U s MonitorInfo.default) := by
  induction k with
  | zero => rfl
  | succ k ih =>
    simp only [responses, List.replicate_succ, visits, List.filterMap_cons, respond] at ih ⊢
    rw [← ih]
    rfl

theorem responses_append (s : U.State) (left right : List Request) :
    responses U s (left ++ right) =
      responses U s left ++ responses U (left.foldl (serve U) s) right := by
  simp only [responses, visits_append, List.filterMap_append]

theorem responses_sets (s : U.State) (sets : List MonitorInfo) :
    responses U s (sets.map .set) = [] := by
  induction sets generalizing s with
  | nil => rfl
  | cons info rest ih => exact ih (serve U s (.set info))

theorem filterMap_sent_sets (sets : List MonitorInfo) :
    (sets.map Request.set).filterMap Request.sent = sets := by
  induction sets with
  | nil => rfl
  | cons info rest ih => simpa [Request.sent] using ih

/-- Reads that follow a run of writes all return one stored message. -/
theorem responses_sets_gets (sets : List MonitorInfo) (k : ℕ) (hsets : sets ≠ []) :
    ∃ info, latest MonitorInfo.name info.name sets = some info ∧
      responses U U.clear (sets.map .set ++ List.replicate k .get) = List.replicate k info := by
  have hsent : (sets.map Request.set).filterMap Request.sent ≠ [] := by
    rw [filterMap_sent_sets]
    exact hsets
  obtain ⟨info, hget, hlatest⟩ :=
    getMonitorInfo_run U (sets.map .set) MonitorInfo.default hsent
  rw [filterMap_sent_sets] at hlatest
  refine ⟨info, hlatest, ?_⟩
  rw [responses_append, responses_sets, List.nil_append, responses_replicate_get, hget]

/-- The names stored by a run of writes. -/
def names (sets : List MonitorInfo) : Finset String := (sets.map MonitorInfo.name).toFinset

/-- The responses contain the latest message of every name set. -/
def CoversAll (sets responses : List MonitorInfo) : Prop :=
  ∀ name ∈ names sets, ∃ info ∈ responses, latest MonitorInfo.name name sets = some info

theorem coversAll_replicate_iff (sets : List MonitorInfo) (k : ℕ) (info : MonitorInfo)
    (hk : 0 < k) (hinfo : latest MonitorInfo.name info.name sets = some info) :
    CoversAll sets (List.replicate k info) ↔ (names sets).card = 1 := by
  have hmem : info.name ∈ names sets := by
    rw [names, List.mem_toFinset]
    exact List.mem_map_of_mem (latest_mem _ hinfo).1
  rw [Finset.card_eq_one]
  constructor
  · intro hcovers
    refine ⟨info.name, Finset.eq_singleton_iff_unique_mem.mpr ⟨hmem, ?_⟩⟩
    intro name hname
    obtain ⟨other, hother, hlatest⟩ := hcovers name hname
    rw [List.eq_of_mem_replicate hother] at hlatest
    exact (latest_mem _ hlatest).2.symm
  · intro hone name hname
    obtain ⟨only, honly⟩ := hone
    rw [honly, Finset.mem_singleton] at hmem hname
    refine ⟨info, List.mem_replicate.mpr ⟨hk.ne', rfl⟩, ?_⟩
    rw [hname, ← hmem]
    exact hinfo

/-- After writes under `n` names, `n` or more reads return copies of one latest
message, and so all stored agents exactly when there is a single name. -/
theorem relay_reads_one_agent (sets : List MonitorInfo) (k : ℕ) (hsets : sets ≠ [])
    (hk : (names sets).card ≤ k) :
    (∃ info, latest MonitorInfo.name info.name sets = some info ∧
      responses U U.clear (sets.map .set ++ List.replicate k .get) = List.replicate k info) ∧
    (CoversAll sets (responses U U.clear (sets.map .set ++ List.replicate k .get)) ↔
      (names sets).card = 1) := by
  obtain ⟨info, hinfo, hresponses⟩ := responses_sets_gets U sets k hsets
  have hpos : 0 < (names sets).card := by
    rw [Finset.card_pos, names, List.toFinset_nonempty_iff]
    simpa using hsets
  refine ⟨⟨info, hinfo, hresponses⟩, ?_⟩
  rw [hresponses]
  exact coversAll_replicate_iff sets k info (by omega) hinfo

/-- Three writes under two names, read back four times. -/
theorem relay_reads_one_agent_two_names :
    ¬ CoversAll [{ name := "root" }, { name := "app" }, { name := "root", cpuStat := [{}] }]
      (responses (listMap String MonitorInfo) [] ([.set { name := "root" },
        .set { name := "app" }, .set { name := "root", cpuStat := [{}] }] ++
          List.replicate 4 .get)) := by
  have h := (relay_reads_one_agent (listMap String MonitorInfo)
    [{ name := "root" }, { name := "app" }, { name := "root", cpuStat := [{}] }] 4
    (by simp) (by decide)).2
  intro hcovers
  exact absurd (h.mp hcovers) (by decide)

/-- Two agents write once each; two reads never show the second one. -/
theorem second_agent_unreadable :
    ¬ ∀ (U : UnorderedMap String MonitorInfo) (sets : List MonitorInfo) (k : ℕ),
      sets ≠ [] → (names sets).card ≤ k →
        CoversAll sets (responses U U.clear (sets.map .set ++ List.replicate k .get)) := by
  intro h
  have hcovers := h (listMap String MonitorInfo) [{ name := "root" }, { name := "app" }] 2
    (by simp) (by decide)
  obtain ⟨info, hinfo, hresponses⟩ := responses_sets_gets (listMap String MonitorInfo)
    [{ name := "root" }, { name := "app" }] 2 (by simp)
  rw [hresponses, coversAll_replicate_iff _ 2 info (by decide) hinfo] at hcovers
  exact absurd hcovers (by decide)

/-! ### Newest versions -/

/-- Nothing was set under the message's name after it. -/
def LastSet (requests : List Request) (info : MonitorInfo) : Prop :=
  ∃ before after, requests = before ++ .set info :: after ∧
    ∀ later, Request.set later ∈ after → later.name ≠ info.name

/-- The messages set under one name, in order. -/
def setsUnder (name : String) (requests : List Request) : List MonitorInfo :=
  (requests.filterMap Request.sent).filter (fun info => info.name = name)

theorem mem_filterMap_sent (requests : List Request) (info : MonitorInfo) :
    info ∈ requests.filterMap Request.sent ↔ Request.set info ∈ requests := by
  rw [List.mem_filterMap]
  constructor
  · rintro ⟨request, hmem, hsent⟩
    cases request with
    | set other =>
      obtain rfl : other = info := Option.some.inj hsent
      exact hmem
    | get => exact absurd hsent (Option.some_ne_none info).symm
  · intro hmem
    exact ⟨.set info, hmem, rfl⟩

theorem lastSet_iff (requests : List Request) (info : MonitorInfo) :
    LastSet requests info ↔
      latest MonitorInfo.name info.name (requests.filterMap Request.sent) = some info := by
  rw [latest_eq_some_iff]
  constructor
  · rintro ⟨before, after, rfl, hlater⟩
    refine ⟨before.filterMap Request.sent, after.filterMap Request.sent, ?_, rfl, ?_⟩
    · rw [List.filterMap_append]
      rfl
    · intro later hmem
      exact hlater later ((mem_filterMap_sent after later).mp hmem)
  · rintro ⟨pre, post, hsent, _, hlater⟩
    obtain ⟨left, right, rfl, _, hright⟩ := List.filterMap_eq_append_iff.mp hsent
    obtain ⟨reads, request, after, rfl, _, hrequest, hafter⟩ :=
      List.filterMap_eq_cons_iff.mp hright
    cases request with
    | set other =>
      obtain rfl : other = info := Option.some.inj hrequest
      refine ⟨left ++ reads, after, by rw [List.append_assoc], ?_⟩
      intro later hmem
      apply hlater
      rw [← hafter]
      exact (mem_filterMap_sent after later).mpr hmem
    | get => exact absurd hrequest (Option.some_ne_none info).symm

/-- What is stored depends on the order of the writes under each single name only. -/
theorem find_run_congr (left right : List Request)
    (h : ∀ name, setsUnder name left = setsUnder name right) :
    U.find (left.foldl (serve U) U.clear) = U.find (right.foldl (serve U) U.clear) := by
  funext name
  rw [find_run, find_run]
  exact congrArg List.getLast? (h name)

theorem find_run_eq_some_iff (requests : List Request) (name : String) (info : MonitorInfo) :
    U.find (requests.foldl (serve U) U.clear) name = some info ↔
      info.name = name ∧ LastSet requests info := by
  rw [find_run, lastSet_iff]
  constructor
  · intro hlatest
    have hname := (latest_mem _ hlatest).2
    subst hname
    exact ⟨rfl, hlatest⟩
  · rintro ⟨rfl, hlatest⟩
    exact hlatest

theorem lastSet_getMonitorInfo (requests : List Request) (response : MonitorInfo)
    (h : ∃ info, Request.set info ∈ requests) :
    LastSet requests (getMonitorInfo U (requests.foldl (serve U) U.clear) response) := by
  obtain ⟨sent, hsent⟩ := h
  have hne : requests.filterMap Request.sent ≠ [] :=
    List.ne_nil_of_mem ((mem_filterMap_sent requests sent).mpr hsent)
  obtain ⟨info, hget, hlatest⟩ := getMonitorInfo_run U requests response hne
  rw [hget]
  exact (lastSet_iff requests info).mpr hlatest

theorem getMonitorInfo_unset (requests : List Request) (response : MonitorInfo)
    (h : ∀ info, Request.set info ∉ requests) :
    getMonitorInfo U (requests.foldl (serve U) U.clear) response = response := by
  apply getMonitorInfo_clear
  rw [List.eq_nil_iff_forall_not_mem]
  intro info hmem
  exact h info ((mem_filterMap_sent requests info).mp hmem)

/-- In any interleaving of requests and for any order of the map, the store keeps under
each name the last message set under it, every read returns such a message of the requests
before it, and the orders of the writes under single names determine the store. -/
theorem relay_serves_newest (requests : List Request) :
    (∀ name info, U.find (requests.foldl (serve U) U.clear) name = some info ↔
      info.name = name ∧ LastSet requests info) ∧
    (∀ before after, requests = before ++ .get :: after → ∀ response,
      let answer := getMonitorInfo U (before.foldl (serve U) U.clear) response
      ((∃ info, Request.set info ∈ before) → LastSet before answer) ∧
        ((∀ info, Request.set info ∉ before) → answer = response)) ∧
    ∀ other, (∀ name, setsUnder name requests = setsUnder name other) →
      U.find (requests.foldl (serve U) U.clear) = U.find (other.foldl (serve U) U.clear) := by
  refine ⟨find_run_eq_some_iff U requests, ?_, find_run_congr U requests⟩
  intro before _ _ response
  exact ⟨lastSet_getMonitorInfo U before response, getMonitorInfo_unset U before response⟩

end NodeMonitor.Relay
