import Mathlib

/-!
# Rate limits of the admin API

`RateLimiterManager::check_rate_limit` (`src/admin/rate_limiter.rs`) asks three limiters in turn:
the global one, the one of the client's address, the one of the endpoint category. Each that lets
the request pass takes a token, also if a later one rejects it. So rejected requests of one client
use up the global limiter for all others (`rejected_requests_starve`). They do no harm where the
first limiter that is configured decides: it rejects, or all let the request pass
(`rejected_isolated`).

A limiter is a token bucket. Levels are in billionths of a token and time in nanoseconds, so both
are exact. The limiter of an address is made at its first check, full: here it is full until then,
and full again once a cleanup has dropped it.
-/

namespace RustMq.Admin

inductive EndpointCategory where
  | health | readOperations | writeOperations | clusterOperations
  deriving DecidableEq

def EndpointCategory.debug : EndpointCategory → String
  | .health => "Health"
  | .readOperations => "ReadOperations"
  | .writeOperations => "WriteOperations"
  | .clusterOperations => "ClusterOperations"

structure Quota where
  requestsPerSecond : Nat
  burstCapacity : Nat

/-- The quotas of the limiters that are configured and enabled. -/
structure RateLimitConfig where
  enabled : Bool
  global : Option Quota
  perIp : Option Quota
  endpoints : EndpointCategory → Option Quota

variable {Ip : Type} [DecidableEq Ip]

inductive Limiter (Ip : Type) where
  | global
  | ip (address : Ip)
  | category (category : EndpointCategory)
  deriving DecidableEq

def RateLimitConfig.quota (cfg : RateLimitConfig) : Limiter Ip → Option Quota
  | .global => cfg.global
  | .ip _ => cfg.perIp
  | .category category => cfg.endpoints category

structure RateLimitInfo (Ip : Type) where
  category : EndpointCategory
  clientIp : Ip
  deriving DecidableEq

/-- Without the time of the reset, which is that of the wall clock. -/
structure RateLimitError where
  error : String
  retryAfter : Nat
  limit : Nat
  remaining : Nat
  deriving DecidableEq

/-- What a client gets from the limiter that rejects its request. -/
def rateLimitError (cfg : RateLimitConfig) (limiter : Limiter Ip) : RateLimitError :=
  let limit := ((cfg.quota limiter).map Quota.requestsPerSecond).getD 0
  let error := match limiter with
    | .global => "Global rate limit exceeded"
    | .ip _ => "Per-IP rate limit exceeded"
    | .category category => category.debug ++ " rate limit exceeded"
  ⟨error, max 1 (60 / limit), limit, 0⟩

/-! ## Token buckets -/

abbrev Levels (Ip : Type) := Limiter Ip → Nat

def token : Nat := 10 ^ 9

def Quota.full (quota : Quota) : Nat := quota.burstCapacity * token

def Levels.start (cfg : RateLimitConfig) : Levels Ip := fun limiter =>
  ((cfg.quota limiter).map Quota.full).getD 0

def Levels.pass (cfg : RateLimitConfig) (elapsed : Nat) (levels : Levels Ip) : Levels Ip :=
  fun limiter =>
    match cfg.quota limiter with
    | some quota => min quota.full (levels limiter + quota.requestsPerSecond * elapsed)
    | none => levels limiter

def Levels.check (cfg : RateLimitConfig) (levels : Levels Ip) (limiter : Limiter Ip) :
    Option (Levels Ip) :=
  match cfg.quota limiter with
  | some _ =>
    if token ≤ levels limiter then some (Function.update levels limiter (levels limiter - token))
    else none
  | none => some levels

/-- The limiters one after the other, up to the first that rejects. -/
def Levels.checkAll (cfg : RateLimitConfig) :
    Levels Ip → List (Limiter Ip) → Option (Limiter Ip) × Levels Ip
  | levels, [] => (none, levels)
  | levels, limiter :: limiters =>
    match levels.check cfg limiter with
    | some levels => checkAll cfg levels limiters
    | none => (some limiter, levels)

/-- `check_rate_limit`: the limiter that rejects the request, if one does, and the levels after. -/
def checkRateLimit (cfg : RateLimitConfig) (levels : Levels Ip) (info : RateLimitInfo Ip) :
    Option (Limiter Ip) × Levels Ip :=
  if cfg.enabled then
    levels.checkAll cfg [.global, .ip info.clientIp, .category info.category]
  else (none, levels)

/-! ## Histories -/

/-- A request, time that passes, or a cleanup that drops the limiters of idle addresses: the next
request of such an address makes a new one. -/
inductive Event (Ip : Type) where
  | request (info : RateLimitInfo Ip)
  | pass (elapsed : Nat)
  | cleanup (idle : Ip → Bool)

def Levels.cleanup (cfg : RateLimitConfig) (idle : Ip → Bool) (levels : Levels Ip) : Levels Ip
  | .ip address => if idle address then Levels.start cfg (.ip address) else levels (.ip address)
  | limiter => levels limiter

/-- Every request with the error it gets. -/
def outcomes (cfg : RateLimitConfig) :
    Levels Ip → List (Event Ip) → List (RateLimitInfo Ip × Option RateLimitError)
  | _, [] => []
  | levels, .pass elapsed :: history => outcomes cfg (levels.pass cfg elapsed) history
  | levels, .cleanup idle :: history => outcomes cfg (levels.cleanup cfg idle) history
  | levels, .request info :: history =>
    let (rejecting, levels) := checkRateLimit cfg levels info
    (info, rejecting.map (rateLimitError cfg)) :: outcomes cfg levels history

def rejectedOf (client : Ip) (outcome : RateLimitInfo Ip × Option RateLimitError) : Bool :=
  outcome.1.clientIp = client && outcome.2.isSome

/-- The history without the rejected requests of the client. -/
def withoutRejected (cfg : RateLimitConfig) (client : Ip) :
    Levels Ip → List (Event Ip) → List (Event Ip)
  | _, [] => []
  | levels, .pass elapsed :: history =>
    .pass elapsed :: withoutRejected cfg client (levels.pass cfg elapsed) history
  | levels, .cleanup idle :: history =>
    .cleanup idle :: withoutRejected cfg client (levels.cleanup cfg idle) history
  | levels, .request info :: history =>
    let (rejecting, levels) := checkRateLimit cfg levels info
    if rejectedOf client (info, rejecting.map (rateLimitError cfg)) then
      withoutRejected cfg client levels history
    else .request info :: withoutRejected cfg client levels history

/-! ## Requests that take nothing when they are rejected -/

def Levels.passes (cfg : RateLimitConfig) (levels : Levels Ip) (limiter : Limiter Ip) : Bool :=
  (cfg.quota limiter).isNone || token ≤ levels limiter

/-- Where the limiter of the address rejects, there is no global one; where that of the category
rejects, there is neither. -/
def TakesNothing (cfg : RateLimitConfig) (levels : Levels Ip) (info : RateLimitInfo Ip) : Prop :=
  cfg.enabled = true → levels.passes cfg .global = true →
    (levels.passes cfg (.ip info.clientIp) = false → cfg.global = none) ∧
    (levels.passes cfg (.ip info.clientIp) = true →
      levels.passes cfg (.category info.category) = false → cfg.global = none ∧ cfg.perIp = none)

/-- Every request of the history comes at such levels. -/
def AllTakeNothing (cfg : RateLimitConfig) : Levels Ip → List (Event Ip) → Prop
  | _, [] => True
  | levels, .pass elapsed :: history => AllTakeNothing cfg (levels.pass cfg elapsed) history
  | levels, .cleanup idle :: history => AllTakeNothing cfg (levels.cleanup cfg idle) history
  | levels, .request info :: history =>
    TakesNothing cfg levels info ∧ AllTakeNothing cfg (checkRateLimit cfg levels info).2 history

def Levels.taken (cfg : RateLimitConfig) (levels : Levels Ip) (limiter : Limiter Ip) : Levels Ip :=
  match cfg.quota limiter with
  | some _ => Function.update levels limiter (levels limiter - token)
  | none => levels

variable {cfg : RateLimitConfig} {client : Ip} {levels : Levels Ip} {limiter other : Limiter Ip}
  {info : RateLimitInfo Ip}

theorem Levels.check_eq : levels.check cfg limiter =
    if levels.passes cfg limiter then some (levels.taken cfg limiter) else none := by
  rw [Levels.check, Levels.passes, Levels.taken]
  cases cfg.quota limiter with
  | none => rfl
  | some quota => simp

theorem Levels.taken_of_ne (h : other ≠ limiter) : levels.taken cfg limiter other = levels other := by
  rw [Levels.taken]
  cases cfg.quota limiter with
  | none => rfl
  | some _ => exact Function.update_of_ne h ..

theorem Levels.passes_taken (h : other ≠ limiter) :
    (levels.taken cfg limiter).passes cfg other = levels.passes cfg other := by
  rw [Levels.passes, Levels.passes, Levels.taken_of_ne h]

/-- A limiter that lets a request pass has one token less, unless it is not configured. -/
theorem Levels.taken_eq_iff (h : levels.passes cfg limiter = true) :
    levels.taken cfg limiter limiter = levels limiter ↔ cfg.quota limiter = none := by
  rw [Levels.passes] at h
  rw [Levels.taken]
  cases hquota : cfg.quota limiter with
  | none => simp
  | some quota =>
    have htoken : token ≤ levels limiter := by simpa [hquota] using h
    have hpos : 0 < token := by decide
    simp only [Function.update_self, reduceCtorEq, iff_false]
    omega

/-- The four ways a request can go. -/
theorem checkRateLimit_eq (henabled : cfg.enabled = true) : checkRateLimit cfg levels info =
    if levels.passes cfg .global = false then (some .global, levels)
    else
      let levels₁ := levels.taken cfg .global
      if levels.passes cfg (.ip info.clientIp) = false then (some (.ip info.clientIp), levels₁)
      else
        let levels₂ := levels₁.taken cfg (.ip info.clientIp)
        if levels.passes cfg (.category info.category) = false then
          (some (.category info.category), levels₂)
        else (none, levels₂.taken cfg (.category info.category)) := by
  simp only [checkRateLimit, if_pos henabled, Levels.checkAll, Levels.check_eq]
  cases hglobal : levels.passes cfg .global with
  | false => rfl
  | true =>
    simp only [if_true, Levels.passes_taken (show Limiter.ip info.clientIp ≠ .global by simp)]
    cases hip : levels.passes cfg (.ip info.clientIp) with
    | false => rfl
    | true =>
      simp only [if_true, Levels.passes_taken (show Limiter.category info.category ≠
        .ip info.clientIp by simp), Levels.passes_taken (show Limiter.category info.category ≠
        (.global : Limiter Ip) by simp)]
      cases levels.passes cfg (.category info.category) with
      | false => rfl
      | true => rfl

/-- The limiter of an address or a category that rejects leaves all others as they were. -/
def LeavesOthers (cfg : RateLimitConfig) (levels : Levels Ip) (info : RateLimitInfo Ip) : Prop :=
  ∀ limiter ≠ .global, (checkRateLimit cfg levels info).1 = some limiter →
    ∀ other ≠ limiter, (checkRateLimit cfg levels info).2 other = levels other

variable (limiter) in
theorem Levels.taken_of_none (h : cfg.quota limiter = none) : levels.taken cfg limiter = levels := by
  rw [Levels.taken, h]

theorem leavesOthers_iff : LeavesOthers cfg levels info ↔ TakesNothing cfg levels info := by
  by_cases henabled : cfg.enabled = true
  swap
  · simp [LeavesOthers, TakesNothing, checkRateLimit, henabled]
  rw [LeavesOthers, TakesNothing, checkRateLimit_eq henabled]
  simp only [henabled, true_implies]
  cases hglobal : levels.passes cfg .global with
  | false => simp
  | true =>
    have hfirst := Levels.taken_eq_iff hglobal
    cases hip : levels.passes cfg (.ip info.clientIp) with
    | false =>
      simp only [Bool.true_eq_false, if_false, if_true, true_implies, Option.some.injEq,
        Bool.false_eq_true, false_implies, and_true]
      constructor
      · intro h
        exact hfirst.mp (h _ (by simp) rfl _ (by simp))
      · rintro hnone _ - rfl other -
        rw [Levels.taken_of_none .global hnone]
    | true =>
      cases hcategory : levels.passes cfg (.category info.category) with
      | true => simp
      | false =>
        have hsecond := Levels.taken_eq_iff ((Levels.passes_taken
          (show Limiter.ip info.clientIp ≠ .global by simp)).trans hip)
        rw [Levels.taken_of_ne (show Limiter.ip info.clientIp ≠ .global by simp)] at hsecond
        simp only [Bool.true_eq_false, if_false, if_true, true_implies, Option.some.injEq,
          false_implies, true_and]
        constructor
        · intro h
          have hkept := h _ (by simp) rfl
          have hg := hkept .global (by simp)
          rw [Levels.taken_of_ne (by simp)] at hg
          exact ⟨hfirst.mp hg, hsecond.mp (hkept _ (by simp))⟩
        · rintro ⟨hnone, hnone'⟩ _ - rfl other -
          rw [Levels.taken_of_none .global hnone,
            Levels.taken_of_none (.ip info.clientIp) hnone']

/-- So a rejected request leaves all levels: the limiter that rejects takes nothing itself. -/
theorem TakesNothing.levels_eq (h : TakesNothing cfg levels info)
    (hrejected : (checkRateLimit cfg levels info).1.isSome = true) :
    (checkRateLimit cfg levels info).2 = levels := by
  by_cases henabled : cfg.enabled = true
  swap
  · simp [checkRateLimit, henabled]
  have h := h henabled
  rw [checkRateLimit_eq henabled] at hrejected ⊢
  cases hglobal : levels.passes cfg .global with
  | false => simp
  | true =>
    rw [hglobal] at h hrejected
    cases hip : levels.passes cfg (.ip info.clientIp) with
    | false =>
      have hnone := (h rfl).1 hip
      simp [Levels.taken_of_none .global hnone]
    | true =>
      rw [hip] at h hrejected
      cases hcategory : levels.passes cfg (.category info.category) with
      | true => simp [hcategory] at hrejected
      | false =>
        obtain ⟨hnone, hnone'⟩ := (h rfl).2 rfl hcategory
        simp [Levels.taken_of_none .global hnone,
          Levels.taken_of_none (.ip info.clientIp) hnone']

theorem AllTakeNothing.outcomes_eq {history : List (Event Ip)}
    (h : AllTakeNothing cfg levels history) :
    outcomes cfg levels (withoutRejected cfg client levels history) =
      (outcomes cfg levels history).filter fun outcome => !rejectedOf client outcome := by
  induction history generalizing levels with
  | nil => rfl
  | cons event history ih =>
    cases event with
    | pass elapsed => exact ih h
    | cleanup idle => exact ih h
    | request info =>
      simp only [outcomes, withoutRejected]
      cases hrejected : rejectedOf client
          (info, (checkRateLimit cfg levels info).1.map (rateLimitError cfg)) with
      | true =>
        obtain ⟨-, hsome⟩ := Bool.and_eq_true_iff.mp hrejected
        have hsame := h.1.levels_eq (by simpa using hsome)
        have hrest := h.2
        rw [hsame] at hrest ⊢
        rw [List.filter_cons_of_neg (by simp [hrejected]), if_pos rfl, ih hrest]
      | false =>
        rw [List.filter_cons_of_pos (by simp [hrejected]), if_neg Bool.false_ne_true]
        exact congrArg (_ :: ·) (ih h.2)

/-- **Rejected requests take nothing of other limiters** exactly where they come at levels at which
the first limiter that is configured decides; and in every history in which all requests come at such
levels, all other requests end as before without the rejected requests of a client. -/
theorem rejected_isolated (cfg : RateLimitConfig) :
    (∀ (levels : Levels Ip) (info : RateLimitInfo Ip),
      LeavesOthers cfg levels info ↔ TakesNothing cfg levels info) ∧
    ∀ (client : Ip) (levels : Levels Ip) (history : List (Event Ip)),
      AllTakeNothing cfg levels history →
        outcomes cfg levels (withoutRejected cfg client levels history) =
          (outcomes cfg levels history).filter fun outcome => !rejectedOf client outcome :=
  ⟨fun _ _ => leavesOthers_iff, fun _ _ _ h => h.outcomes_eq⟩

/-- Client 1 asks twice, then client 2 once. -/
def threeRequests : List (Event Nat) :=
  [.request ⟨.health, 1⟩, .request ⟨.health, 1⟩, .request ⟨.health, 2⟩]

def oneEach (burst : Nat) : RateLimitConfig := ⟨true, some ⟨1, burst⟩, some ⟨1, 1⟩, fun _ => none⟩

/-- Without a global limiter the rejected request takes nothing. -/
example : AllTakeNothing ⟨true, none, some ⟨1, 1⟩, fun _ => none⟩
    (.start ⟨true, none, some ⟨1, 1⟩, fun _ => none⟩) threeRequests := by
  refine ⟨?_, ?_, ?_, trivial⟩
  · exact fun _ _ => ⟨fun _ => rfl, fun _ h => nomatch h⟩
  · exact fun _ _ => ⟨fun _ => rfl, fun _ h => nomatch h⟩
  · exact fun _ _ => ⟨fun _ => rfl, fun _ h => nomatch h⟩

/-- The global limiter lets two requests pass: one of them is that of client 1 that the limiter of
its address rejects. -/
theorem rejected_requests_starve :
    outcomes (oneEach 2) (.start (oneEach 2)) threeRequests =
      [(⟨.health, 1⟩, none), (⟨.health, 1⟩, some ⟨"Per-IP rate limit exceeded", 60, 1, 0⟩),
        (⟨.health, 2⟩, some ⟨"Global rate limit exceeded", 60, 1, 0⟩)] ∧
    outcomes (oneEach 2) (.start (oneEach 2))
        (withoutRejected (oneEach 2) 1 (.start (oneEach 2)) threeRequests) =
      [(⟨.health, 1⟩, none), (⟨.health, 2⟩, none)] := by
  decide

end RustMq.Admin
