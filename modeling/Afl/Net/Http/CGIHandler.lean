import Afl.Lib.Loop
import Afl.Net.Http.PageDispatcher

/-!
# The CGI handler

`afl/net/http/cgihandler.cpp`. The loop that reads the body of a POST request never counts down the size, and the form
parser is never told that the body is complete. `handlePage` is a loop with a result, and takes fuel.
-/

namespace Afl.Net.Http.CGIHandler

open Loop PageDispatcher

/-! ### Standard input -/

/-- The standard input: one that ends, or one that never does. -/
inductive StandardInput
  | ends (content : Bytes)
  | goesOn (content : Nat → UInt8)

/-- `Stream::fullRead`: the bytes, and the input behind them. -/
def StandardInput.fullRead (size : Nat) : StandardInput → Option (Bytes × StandardInput)
  | .ends content => if size ≤ content.length then some (content.take size, .ends (content.drop size)) else none
  | .goesOn content => some ((List.range size).map content, .goesOn fun i => content (size + i))

/-- What `FileTooShortException` says. -/
def fileTooShort : Bytes := lit "File too short"

/-! ### Building the request -/

def headerMap : List (Bytes × Bytes) :=
  [(lit "CONTENT_TYPE", lit "Content-Type"),
    (lit "HTTP_ACCEPT", lit "Accept"),
    (lit "HTTP_ACCEPT_ENCODING", lit "Accept-Encoding"),
    (lit "HTTP_ACCEPT_LANGUAGE", lit "Accept-Language"),
    (lit "HTTP_CONNECTION", lit "Connection"),
    (lit "HTTP_COOKIE", lit "Cookie"),
    (lit "HTTP_HOST", lit "Host"),
    (lit "HTTP_REFERER", lit "Referer"),
    (lit "HTTP_USER_AGENT", lit "User-Agent")]

/-- The loop over `HEADER_MAP`; `env` is `getEnvironmentVariable`. -/
def addHeaders (env : Bytes → Bytes) (headers : HeaderTable) : HeaderTable :=
  headers ++ (headerMap.filter fun m => env m.1 ≠ []).map fun m => ⟨m.2, env m.1⟩

def addQuery (env : Bytes → Bytes) (r : PageRequest) : PageRequest :=
  let query := env (lit "QUERY_STRING")
  if query ≠ [] then
    { r with m_formParser.consumer := r.m_formParser.consumer ++ (matchArguments (63 :: query)).1 }
  else r

/-- `buildPageRequest` up to the body. -/
def configure (env : Bytes → Bytes) (r : PageRequest) : PageRequest :=
  let r := addQuery env { r with m_headers := addHeaders env r.m_headers }
  let method := env (lit "REQUEST_METHOD")
  if method ≠ [] then r.setMethod method else r

/-- The loop that reads the body. -/
structure Body where
  input : StandardInput
  request : PageRequest
  /-- What has been passed to the request. The code does not keep this list. -/
  passed : List Bytes

/-- A round of the loop. Nothing is deducted from `size`. -/
def readBody (size : Nat) (s : Body) : Round Body (Except Bytes Body) :=
  if size > 0 then
    match s.input.fullRead (min size 4096) with
    | some (bytes, input) => .again ⟨input, s.request.handleData bytes, s.passed ++ [bytes]⟩
    | none => .leave (.error fileTooShort)
  else .leave (.ok s)

/-- `buildPageRequest`: the request, or what an exception says. -/
def buildPageRequest (fuel : Nat) (env : Bytes → Bytes) (input : StandardInput) (r : PageRequest) :
    Option (Except Bytes Body) :=
  let s : Body := ⟨input, configure env r, []⟩
  if env (lit "REQUEST_METHOD") = lit "POST" then
    match strToULong (env (lit "CONTENT_LENGTH")) with
    | some size => run (readBody size) fuel s
    | none => some (.ok s)
  else some (.ok s)

/-! ### Handling a page -/

def sendHeaders (resp : PageResponse) : Bytes :=
  (if resp.m_statusCode ≠ PageResponse.OK then
    lit "Status: " ++ decimal resp.m_statusCode ++ lit " " ++ resp.getStatusText ++ [13, 10]
  else []) ++ HeaderTable.writeHeaders resp.m_headers ++ [13, 10]

/-- The part of `handlePage` that sends the response. -/
def sendResponse (requestMethod : Bytes) (out : PageResponse) : Bytes :=
  if requestMethod = lit "HEAD" then
    sendHeaders (if HeaderTable.get out.m_headers (lit "Content-Length") = none then
      { out with m_headers := out.m_headers ++ [⟨lit "Content-Length", decimal out.m_body.length⟩] } else out)
  else sendHeaders out ++ out.m_body

/-- The emergency page for a `FileProblemException`. -/
def emergencyPage (what fileName : Bytes) : Bytes :=
  lit "Status: 500 Internal Server Error\r\nContent-Type: text/plain\r\n\r\n" ++ lit "Exception text: " ++ what ++
    [13, 10] ++ lit "File name: " ++ fileName ++ [13, 10]

/-- The request, the response and `wantUser` before the request is built. -/
def check (env : Bytes → Bytes) (page : Page) : PageRequest × PageResponse × Bool :=
  let requestMethod := env (lit "REQUEST_METHOD")
  let r := PageRequest.create [] (env (lit "SCRIPT_NAME")) (env (lit "PATH_INFO"))
  let out := PageResponse.create
  if page.isValidMethod requestMethod = false then
    if requestMethod = lit "HEAD" ∧ page.isValidMethod (lit "GET") = true then (r.setMethod (lit "GET"), out, true)
    else (r.setIgnoreData, (out.setStatusCode PageResponse.METHOD_NOT_ALLOWED).finish, false)
  else if r.m_path ≠ [] ∧ page.isValidPath = false then
    (r.setIgnoreData, (out.setStatusCode PageResponse.NOT_FOUND).finish, false)
  else (r, out, true)

/-- What `handlePage` does: the request that the page is invoked with, and the output. -/
structure Handled where
  invoked : Option PageRequest
  output : Bytes

/-- The part of `handlePage` behind `buildPageRequest`. -/
def respond (env : Bytes → Bytes) (fileName : Bytes) (page : Page) (out : PageResponse) (wantUser : Bool) :
    Except Bytes Body → Handled
  | .ok s =>
    if wantUser = true then
      ⟨some s.request, sendResponse (env (lit "REQUEST_METHOD")) (page.handleRequest s.request out).2.finish⟩
    else ⟨none, sendResponse (env (lit "REQUEST_METHOD")) out.finish⟩
  | .error what => ⟨none, emergencyPage what fileName⟩

def handlePage (fuel : Nat) (env : Bytes → Bytes) (fileName : Bytes) (input : StandardInput) (page : Page) :
    Option Handled :=
  let (r, out, wantUser) := check env page
  (buildPageRequest fuel env input r).map (respond env fileName page out wantUser)

/-! ### The body -/

theorem not_ends_readBody {size : Nat} (hsize : 0 < size) (s s' : Body) : ¬Ends (readBody size) s (.ok s') := by
  intro hends
  refine Ends.of_invariant (I := fun _ => True) (Q := fun a => ∀ s', a ≠ .ok s') (fun _ _ => trivial) ?_ trivial hends
    s' rfl
  intro s a _ hround s'
  rw [readBody, if_pos hsize] at hround
  split at hround
  · cases hround
  · rw [← Round.leave.inj hround]
    intro herror
    cases herror

theorem run_readBody_zero (fuel : Nat) (s : Body) : run (readBody 0) (fuel + 1) s = some (.ok s) :=
  run_leave (if_neg (lt_irrefl 0))

/-- `buildPageRequest` consumes the first `size` bytes and passes exactly these to the request. -/
def Delivers (env : Bytes → Bytes) (input : StandardInput) (size : Nat) : Prop :=
  ∀ r, ∃ fuel s data, buildPageRequest fuel env input r = some (.ok s) ∧
    input.fullRead size = some (data, s.input) ∧ s.passed.flatten = data

variable {env : Bytes → Bytes}

theorem delivers_post_iff {size : Nat} (hmethod : env (lit "REQUEST_METHOD") = lit "POST")
    (hlength : strToULong (env (lit "CONTENT_LENGTH")) = some size) (input : StandardInput) :
    Delivers env input size ↔ size = 0 := by
  have hbuild : ∀ fuel r,
      buildPageRequest fuel env input r = run (readBody size) fuel ⟨input, configure env r, []⟩ := by
    intro fuel r
    simp only [buildPageRequest, if_pos hmethod, hlength]
  constructor
  · intro hdelivers
    obtain ⟨fuel, s, data, hrun, -⟩ := hdelivers (.create [] [] [])
    rw [hbuild] at hrun
    exact Nat.eq_zero_of_not_pos fun hpos => not_ends_readBody hpos _ s ⟨fuel, hrun⟩
  · rintro rfl r
    refine ⟨1, ⟨input, configure env r, []⟩, [], ?_, ?_, rfl⟩
    · rw [hbuild, run_readBody_zero]
    · cases input with
      | ends content => rfl
      | goesOn content => simp only [StandardInput.fullRead, List.range_zero, List.map_nil, Nat.zero_add]

/-! ### The server -/

theorem matchArguments_eq (path : Bytes) :
    matchArguments path = (arguments (path.dropWhile fun c => c ≠ 63), path.takeWhile fun c => c ≠ 63) := by
  rw [matchArguments]
  rcases Split.cases (fun b : UInt8 => b = 63) path with hnone | ⟨a, d, b, rfl, hd, ha⟩
  · have hplain : ∀ c ∈ path, decide (c ≠ 63) = true := fun c hc => decide_eq_true (of_decide_eq_false (hnone c hc))
    rw [Split.findIdx?_none hnone, List.takeWhile_eq_self_iff.mpr hplain, List.dropWhile_eq_nil_iff.mpr hplain,
      arguments]
  · have hplain : ∀ c ∈ a, decide (c ≠ 63) = true := fun c hc => decide_eq_true (of_decide_eq_false (ha c hc))
    obtain rfl : d = 63 := of_decide_eq_true hd
    rw [Split.findIdx?_append ha hd, List.takeWhile_append_of_pos hplain, List.dropWhile_append_of_pos hplain,
      List.takeWhile_cons_of_neg (by decide), List.dropWhile_cons_of_neg (by decide), List.append_nil]
    simp only [List.drop_left, List.take_left]

/-- The environment describes the headers that a server has received. -/
def SameHeaders (env : Bytes → Bytes) (headers : HeaderTable) : Prop :=
  ∀ m ∈ headerMap, env m.1 = ((HeaderTable.get headers m.2).map HeaderField.value).getD []

/-- The environment describes the path behind the page: up to a question mark, and behind it. -/
def SameQuery (env : Bytes → Bytes) (path : Bytes) : Prop :=
  env (lit "PATH_INFO") = path.takeWhile (fun c => c ≠ 63) ∧
    env (lit "QUERY_STRING") = (path.dropWhile fun c => c ≠ 63).tail

/-- A page that is invoked gets the arguments and the body that a server would invoke it with. -/
def AgreesWithServer (env : Bytes → Bytes) (fileName : Bytes) (input : StandardInput) (page : Page) (size : Nat) :
    Prop :=
  ∀ fuel handled r, handlePage fuel env fileName input page = some handled → handled.invoked = some r →
    ∀ (request : Request) (root self path data : Bytes) (rest : StandardInput) (chunks : List Bytes),
      request.method = lit "POST" → SameHeaders env request.headers → SameQuery env path →
      input.fullRead size = some (data, rest) → chunks.flatten = data →
      ∃ r', (chunks.foldl Handler.handleData (.create (some page) request root self path)).invoked = some (page, r') ∧
        r.arguments = r'.arguments ∧ r.m_body = r'.m_body

/-- Nothing of a body has arrived yet. -/
structure Blank (r : PageRequest) (arguments : HeaderTable) : Prop where
  consumer : r.m_formParser.consumer = arguments
  key : r.m_formParser.key = []
  value : r.m_formParser.value = []
  body : r.m_body = []

theorem Blank.handleData_nil {r : PageRequest} {arguments : HeaderTable} (h : Blank r arguments) :
    Blank (r.handleData []) arguments := by
  have hdecide : Blank r.decideStatus arguments := by
    rw [PageRequest.decideStatus]
    split_ifs
    · exact ⟨h.consumer, h.key, h.value, h.body⟩
    · exact h
  rw [PageRequest.handleData, PageRequest.receive]
  split
  · exact hdecide
  · exact hdecide
  · exact ⟨hdecide.consumer, hdecide.key, hdecide.value, (List.append_nil _).trans hdecide.body⟩
  · exact hdecide

theorem Blank.foldl {r : PageRequest} {arguments : HeaderTable} (h : Blank r arguments) {chunks : List Bytes}
    (hchunks : chunks.flatten = []) : Blank (chunks.foldl PageRequest.handleData r) arguments := by
  induction chunks generalizing r with
  | nil => exact h
  | cons chunk chunks ih =>
    rw [List.flatten_cons, List.append_eq_nil_iff] at hchunks
    obtain ⟨rfl, hchunks⟩ := hchunks
    exact ih h.handleData_nil hchunks

theorem Blank.finish {r : PageRequest} {arguments : HeaderTable} (h : Blank r arguments) :
    Blank r.finish arguments := by
  have hcomplete : r.m_formParser.handleDataComplete = { r.m_formParser with state := .key } := by
    rw [FormParser.handleDataComplete, if_neg]
    rintro (hkey | hvalue)
    · exact hkey h.key
    · exact hvalue h.value
  rw [PageRequest.finish]
  split
  · exact h
  · exact h
  · exact h
  · rw [hcomplete]
    exact ⟨h.consumer, h.key, h.value, h.body⟩

theorem blank_create (page : Option Page) (request : Request) (root self path : Bytes) :
    Blank (Handler.create page request root self path).m_pageRequest (matchArguments path).1 := by
  rw [Handler.create, Handler.init]
  dsimp only
  split
  · split_ifs <;> exact ⟨rfl, rfl, rfl, rfl⟩
  · exact ⟨rfl, rfl, rfl, rfl⟩

theorem blank_check (env : Bytes → Bytes) (page : Page) :
    Blank (check env page).1 (matchArguments (env (lit "PATH_INFO"))).1 := by
  rw [check]
  split_ifs <;> exact ⟨rfl, rfl, rfl, rfl⟩

theorem check_wantUser_iff (env : Bytes → Bytes) (page : Page) :
    (check env page).2.2 = true ↔
      Handler.Accepts page (env (lit "REQUEST_METHOD")) (matchArguments (env (lit "PATH_INFO"))).2 := by
  have hpath : ∀ root self path, (PageRequest.create root self path).m_path = (matchArguments path).2 :=
    fun _ _ _ => rfl
  rw [check, Handler.Accepts]
  rw [hpath]
  split_ifs with hmethod hhead hrefused
  · exact iff_of_true rfl hhead
  · exact iff_of_false not_false hhead
  · refine iff_of_false not_false fun h => ?_
    exact h.elim hrefused.1 fun hvalid => Bool.noConfusion (hrefused.2.symm.trans hvalid)
  · refine iff_of_true rfl ?_
    by_cases hnil : (matchArguments (env (lit "PATH_INFO"))).2 = []
    · exact .inl hnil
    · exact .inr (Bool.not_eq_false _ ▸ fun hinvalid => hrefused ⟨hnil, hinvalid⟩)

theorem arguments_question : arguments [63] = [] := by
  rw [arguments]
  show argument [] ++ arguments [] = []
  rw [arguments]
  rfl

theorem consumer_addQuery {path : Bytes} (hquery : SameQuery env path) (r : PageRequest) :
    addQuery env r = { r with
      m_formParser.consumer := r.m_formParser.consumer ++ (matchArguments path).1 } := by
  have hhead := List.head?_dropWhile_not (fun c : UInt8 => decide (c ≠ 63)) path
  rw [addQuery, hquery.2, matchArguments_eq path]
  cases hdrop : path.dropWhile (fun c => decide (c ≠ 63)) with
  | nil =>
    rw [List.tail_nil, if_neg (not_not.mpr rfl), arguments, List.append_nil]
  | cons c query =>
    rw [hdrop] at hhead
    obtain rfl : c = 63 := not_not.mp (of_decide_eq_false hhead)
    rw [List.tail_cons]
    cases query with
    | nil => rw [if_neg (not_not.mpr rfl), arguments_question, List.append_nil]
    | cons d query =>
      rw [if_pos (List.cons_ne_nil _ _), matchArguments_eq, List.dropWhile_cons_of_neg (by decide)]

theorem blank_configure {path : Bytes} (hquery : SameQuery env path) (page : Page) :
    Blank (configure env (check env page).1) (matchArguments path).1 := by
  have hcheck := blank_check env page
  have hinfo : (matchArguments (env (lit "PATH_INFO"))).1 = [] := by
    have hplain : ∀ c ∈ path.takeWhile (fun c => decide (c ≠ 63)), decide (c ≠ 63) = true :=
      fun c hc => List.mem_takeWhile_imp (p := fun c => decide (c ≠ 63)) hc
    rw [matchArguments_eq, hquery.1, List.dropWhile_eq_nil_iff.mpr hplain, arguments]
  have hconsumer : (check env page).1.m_formParser.consumer ++ (matchArguments path).1 = (matchArguments path).1 := by
    rw [hcheck.consumer, hinfo, List.nil_append]
  rw [configure, consumer_addQuery hquery]
  split_ifs <;> exact ⟨hconsumer, hcheck.key, hcheck.value, hcheck.body⟩

theorem handlePage_eq (fuel : Nat) (env : Bytes → Bytes) (fileName : Bytes) (input : StandardInput) (page : Page) :
    handlePage fuel env fileName input page =
      (buildPageRequest fuel env input (check env page).1).map
        (respond env fileName page (check env page).2.1 (check env page).2.2) := rfl

theorem agreesWithServer_zero (hmethod : env (lit "REQUEST_METHOD") = lit "POST")
    (hlength : strToULong (env (lit "CONTENT_LENGTH")) = some 0) (fileName : Bytes) (input : StandardInput)
    (page : Page) : AgreesWithServer env fileName input page 0 := by
  intro fuel handled r hhandled hinvoked request root self path data rest chunks hpost hheaders hquery hdata hchunks
  have hnothing : chunks.flatten = [] := by
    rw [hchunks]
    cases input with
    | ends content => exact (Prod.mk.inj (Option.some.inj hdata)).1.symm
    | goesOn content => exact (Prod.mk.inj (Option.some.inj hdata)).1.symm
  rw [handlePage_eq] at hhandled
  obtain ⟨result, hbuild, hrespond⟩ := Option.map_eq_some_iff.mp hhandled
  -- there is nothing to read
  have hresult : result = .ok ⟨input, configure env (check env page).1, []⟩ := by
    simp only [buildPageRequest, if_pos hmethod, hlength] at hbuild
    cases fuel with
    | zero => cases hbuild
    | succ fuel =>
      rw [run_readBody_zero] at hbuild
      exact (Option.some.inj hbuild).symm
  rw [← hrespond, hresult, respond] at hinvoked
  by_cases hwants : (check env page).2.2 = true
  swap
  · rw [if_neg hwants] at hinvoked
    cases hinvoked
  rw [if_pos hwants] at hinvoked
  obtain rfl := Option.some.inj hinvoked
  have hcgi := blank_configure hquery page
  have haccepts : Handler.Accepts page request.method (matchArguments path).2 := by
    have hpath : (matchArguments (env (lit "PATH_INFO"))).2 = (matchArguments path).2 := by
      rw [matchArguments_eq, matchArguments_eq, hquery.1, List.takeWhile_eq_self_iff]
      exact fun c hc => List.mem_takeWhile_imp (p := fun c => decide (c ≠ 63)) hc
    rw [hpost, ← hmethod, ← hpath]
    exact (check_wantUser_iff env page).mp hwants
  have hserver := ((blank_create (some page) request root self path).foldl hnothing).finish
  refine ⟨_, ?_, hcgi.consumer.trans hserver.consumer.symm, hcgi.body.trans hserver.body.symm⟩
  have hpending := (Handler.pending_create_iff page request root self path).mpr haccepts
  rw [Handler.foldl_handleData, Handler.invoked, Handler.m_page_create, if_pos hpending, Option.map_some]

/-- **The same POST request** in both front ends, exactly when there is no body. -/
theorem deliversSamePost_iff (env : Bytes → Bytes) (fileName : Bytes) (input : StandardInput) (page : Page)
    (size : Nat) (hmethod : env (lit "REQUEST_METHOD") = lit "POST")
    (hlength : strToULong (env (lit "CONTENT_LENGTH")) = some size) (hinput : input.fullRead size ≠ none) :
    Delivers env input size ∧ AgreesWithServer env fileName input page size ↔ size = 0 := by
  rw [delivers_post_iff hmethod hlength]
  refine ⟨And.left, ?_⟩
  rintro rfl
  exact ⟨rfl, agreesWithServer_zero hmethod hlength fileName input page⟩

/-- A POST request with a given length. -/
def post (length : Bytes) (name : Bytes) : Bytes :=
  if name = lit "REQUEST_METHOD" then lit "POST"
  else if name = lit "CONTENT_LENGTH" then length
  else if name = lit "CONTENT_TYPE" then lit "application/x-www-form-urlencoded"
  else []

theorem deliversSamePost_iff_empty :
    AgreesWithServer (post (lit "0")) (lit "<stdin>") (.ends (lit "a=b"))
      ⟨fun _ => true, true, fun r response => (r, response)⟩ 0 :=
  ((deliversSamePost_iff (post (lit "0")) (lit "<stdin>") (.ends (lit "a=b")) _ 0 (by decide) (by decide)
    (by decide)).mpr rfl).2

/-- The three bytes of a form are read and passed. The second round finds the end of the input, and the page is not
invoked. -/
theorem not_delivers_form :
    ¬Delivers (post (lit "3")) (.ends (lit "a=b")) 3 ∧
      (handlePage 2 (post (lit "3")) (lit "<stdin>") (.ends (lit "a=b"))
        ⟨fun _ => true, true, fun r response => (r, response)⟩).map Handled.invoked = some none := by
  refine ⟨fun hdelivers => ?_, rfl⟩
  rw [delivers_post_iff (by decide) (by decide)] at hdelivers
  exact absurd hdelivers (by decide)

end Afl.Net.Http.CGIHandler
