import Afl.Lib.SortedMap
import Afl.Net.Http.PageRequest
import Afl.Net.Http.Request
import Afl.Net.Url.Arguments

/-!
# The page dispatcher

`afl/net/http/pagedispatcher.cpp`, and `matchPath` of `afl/net/url.cpp`. The dispatcher searches its pages backwards:
all paths that match are prefixes of the path that is asked for, and among these the greatest is the longest.
-/

namespace Afl

instance : IsStrictTotalOrder Bytes strLt where
  irrefl _ := lt_irrefl _
  trans _ _ _ hab hbc := lt_trans hab hbc
  trichotomous _ _ hab hba := map_toNat_injective (le_antisymm (not_lt.mp hba) (not_lt.mp hab))

namespace Net

/-- `matchPath`: the suffix behind a prefix that ends at `?`, `/` or the end of the path. -/
def matchPath (path pfx : Bytes) : Option Bytes :=
  if path = pfx then some []
  else if path.length > pfx.length ∧ path.take pfx.length = pfx ∧
      (path.getD pfx.length 0 = 63 ∨ path.getD pfx.length 0 = 47) then
    some (path.drop pfx.length)
  else none

theorem eq_append_of_matchPath {path pfx rest : Bytes} (h : matchPath path pfx = some rest) : path = pfx ++ rest := by
  rw [matchPath] at h
  split_ifs at h with heq hmatch
  · rw [← Option.some.inj h, heq, List.append_nil]
  · rw [← Option.some.inj h]
    calc path = path.take pfx.length ++ path.drop pfx.length := (List.take_append_drop _ _).symm
      _ = pfx ++ path.drop pfx.length := by rw [hmatch.2.1]

namespace Http

def Request.matchPath (r : Request) (pfx : Bytes) : Option Bytes := Net.matchPath r.path pfx

namespace PageDispatcher

inductive OutputStatus
  | pending
  | processed
  | sendBody
  | done
deriving DecidableEq

structure Handler where
  m_page : Option Page
  m_request : Request
  m_pageRequest : PageRequest
  m_pageResponse : PageResponse
  m_outputStatus : OutputStatus

namespace Handler

def refuse (h : Handler) (statusCode : Int) : Handler :=
  { h with
    m_pageRequest := h.m_pageRequest.setIgnoreData
    m_pageResponse := (h.m_pageResponse.setStatusCode statusCode).finish
    m_outputStatus := .processed }

/-- The request that `init` configures. -/
def configured (h : Handler) : PageRequest :=
  { h.m_pageRequest with m_method := h.m_request.method, m_headers := h.m_request.headers }

def init (h : Handler) : Handler :=
  let h := { h with m_pageRequest := h.configured }
  match h.m_page with
  | some page =>
    if page.isValidMethod h.m_request.method = false then
      if h.m_request.method = lit "HEAD" ∧ page.isValidMethod (lit "GET") = true then
        { h with m_pageRequest := h.m_pageRequest.setMethod (lit "GET"), m_outputStatus := .pending }
      else h.refuse PageResponse.METHOD_NOT_ALLOWED
    else if h.m_pageRequest.m_path ≠ [] ∧ page.isValidPath = false then h.refuse PageResponse.NOT_FOUND
    else { h with m_outputStatus := .pending }
  | none => h.refuse PageResponse.NOT_FOUND

def create (page : Option Page) (request : Request) (root self path : Bytes) : Handler :=
  init ⟨page, request, .create root self path, .create, .pending⟩

def handleData (h : Handler) (data : Bytes) : Handler :=
  { h with m_pageRequest := h.m_pageRequest.handleData data }

/-- The call of `Page::handleRequest` that `handleDataComplete` makes. -/
def invoked (h : Handler) : Option (Page × PageRequest) :=
  if h.m_outputStatus = .pending then h.m_page.map fun page => (page, h.m_pageRequest.finish) else none

def handleDataComplete (h : Handler) : Handler :=
  if h.m_outputStatus = .pending then
    match h.invoked with
    | some (page, request) =>
      let (request, response) := page.handleRequest request h.m_pageResponse
      { h with m_pageRequest := request, m_pageResponse := response.finish, m_outputStatus := .processed }
    | none =>
      { h with
        m_pageRequest := h.m_pageRequest.finish
        m_pageResponse := (h.m_pageResponse.setStatusCode PageResponse.INTERNAL_SERVER_ERROR).finish
        m_outputStatus := .processed }
  else h

end Handler

end PageDispatcher

structure PageDispatcher where
  m_prefix : Bytes
  m_pages : SortedMap strLt Page
  m_handleNonexistant : Bool

namespace PageDispatcher

def create (pfx : Bytes) : PageDispatcher := ⟨pfx, .empty, true⟩

def addNewPage (d : PageDispatcher) (path : Bytes) (page : Page) : PageDispatcher :=
  { d with m_pages := d.m_pages.insertNew path page }

def setHandleNonexistant (d : PageDispatcher) (flag : Bool) : PageDispatcher := { d with m_handleNonexistant := flag }

/-- The search of `createNewResponse`: the entry of the page and the path behind it. -/
def findPage (d : PageDispatcher) (selfPath : Bytes) : Option ((Bytes × Page) × Bytes) :=
  d.m_pages.findLast? fun e => (matchPath selfPath e.1).map fun path => (e, path)

def createNewResponse (d : PageDispatcher) (request : Request) : Option Handler :=
  match request.matchPath d.m_prefix with
  | some selfPath =>
    match d.findPage selfPath with
    | some ((self, page), path) => some (.create (some page) request d.m_prefix self path)
    | none => if d.m_handleNonexistant = false then none else some (.create none request d.m_prefix [] [])
  | none => none

theorem mem_addNewPage {d : PageDispatcher} {path : Bytes} {page : Page} {e : Bytes × Page} :
    e ∈ (d.addNewPage path page).m_pages.entries ↔ e = (path, page) ∨ e.1 ≠ path ∧ e ∈ d.m_pages.entries :=
  SortedMap.mem_insertNew

/-! ### What a handler invokes -/

namespace Handler

/-- The page is to process the request: it knows the method, or its GET stands for a HEAD. -/
def Accepts (page : Page) (method path : Bytes) : Prop :=
  if page.isValidMethod method = false then method = lit "HEAD" ∧ page.isValidMethod (lit "GET") = true
  else path = [] ∨ page.isValidPath = true

/-- Nothing about the path is changed on the way to the page. -/
def SamePath (r r' : PageRequest) : Prop :=
  r'.m_rootPath = r.m_rootPath ∧ r'.m_selfPath = r.m_selfPath ∧ r'.m_path = r.m_path

theorem samePath_handleData (r : PageRequest) (data : Bytes) : SamePath r (r.handleData data) := by
  have hdecide : SamePath r r.decideStatus := by
    rw [PageRequest.decideStatus]
    split_ifs <;> exact ⟨rfl, rfl, rfl⟩
  rw [PageRequest.handleData, PageRequest.receive]
  split <;> exact hdecide

theorem samePath_finish (r : PageRequest) : SamePath r r.finish := by
  rw [PageRequest.finish]
  split <;> exact ⟨rfl, rfl, rfl⟩

theorem SamePath.trans {r r' r'' : PageRequest} (h : SamePath r r') (h' : SamePath r' r'') : SamePath r r'' :=
  ⟨h'.1.trans h.1, h'.2.1.trans h.2.1, h'.2.2.trans h.2.2⟩

theorem samePath_foldl (r : PageRequest) (chunks : List Bytes) :
    SamePath r (chunks.foldl PageRequest.handleData r) := by
  induction chunks generalizing r with
  | nil => exact ⟨rfl, rfl, rfl⟩
  | cons chunk chunks ih => exact (samePath_handleData r chunk).trans (ih (r.handleData chunk))

theorem foldl_handleData (h : Handler) (chunks : List Bytes) :
    chunks.foldl handleData h = { h with m_pageRequest := chunks.foldl PageRequest.handleData h.m_pageRequest } := by
  induction chunks generalizing h with
  | nil => rfl
  | cons chunk chunks ih => rw [List.foldl_cons, ih]; rfl

theorem samePath_create (page : Option Page) (request : Request) (root self path : Bytes) :
    SamePath (.create root self path) (create page request root self path).m_pageRequest := by
  rw [create, init]
  dsimp only
  split
  · split_ifs <;> exact ⟨rfl, rfl, rfl⟩
  · exact ⟨rfl, rfl, rfl⟩

theorem m_page_create (page : Option Page) (request : Request) (root self path : Bytes) :
    (create page request root self path).m_page = page := by
  rw [create, init]
  dsimp only
  split
  · split_ifs <;> rfl
  · rfl

theorem pending_create_iff (page : Page) (request : Request) (root self path : Bytes) :
    (create (some page) request root self path).m_outputStatus = .pending ↔
      Accepts page request.method (matchArguments path).2 := by
  rw [create, init, Accepts]
  dsimp only
  split_ifs with hmethod hhead hpath
  · exact iff_of_true rfl hhead
  · exact iff_of_false OutputStatus.noConfusion hhead
  · exact iff_of_false OutputStatus.noConfusion fun h => h.elim hpath.1 (by rw [hpath.2]; exact Bool.noConfusion)
  · refine iff_of_true rfl ?_
    by_cases hnil : (matchArguments path).2 = []
    · exact .inl hnil
    · exact .inr (Bool.not_eq_false _ ▸ fun hinvalid => hpath ⟨hnil, hinvalid⟩)

/-- Whatever data arrive, a page that accepts the request is invoked with the path of the request. -/
theorem invoked_create (page : Page) (request : Request) (root self path : Bytes) (chunks : List Bytes) :
    (∀ p r, (chunks.foldl handleData (create (some page) request root self path)).invoked = some (p, r) →
      p = page ∧ r.m_rootPath = root ∧ r.m_selfPath = self ∧ r.m_path = (matchArguments path).2) ∧
    ((chunks.foldl handleData (create (some page) request root self path)).invoked ≠ none ↔
      Accepts page request.method (matchArguments path).2) := by
  rw [foldl_handleData, invoked, m_page_create, ← pending_create_iff page request root self path]
  constructor
  · intro p r h
    split_ifs at h with hpending
    rw [Option.map_some, Option.some.injEq, Prod.mk.injEq] at h
    have hsame := (samePath_create (some page) request root self path).trans
      ((samePath_foldl _ chunks).trans (samePath_finish _))
    exact ⟨h.1.symm, h.2 ▸ hsame⟩
  · split_ifs with hpending
    · exact iff_of_true (Option.some_ne_none _) hpending
    · exact iff_of_false (not_not.mpr rfl) hpending

theorem invoked_create_none (request : Request) (root self path : Bytes) (chunks : List Bytes) :
    (chunks.foldl handleData (create none request root self path)).invoked = none := by
  rw [foldl_handleData, invoked, m_page_create, Option.map_none, ite_self]

/-- **Forms.** A page that accepts a request with a form, by a method other than `GET` and `HEAD`, is given the arguments
of the path and those that a `ParameterEncoder` has put into the body, however the body was cut; only an argument
without name and value is lost. -/
theorem invoked_form (page : Page) {request : Request} {hf : HeaderField} (root self path : Bytes)
    (hmethod : request.method ≠ lit "GET" ∧ request.method ≠ lit "HEAD")
    (htype : HeaderTable.get request.headers (lit "Content-Type") = some hf)
    (hform : strCaseCompare hf.getPrimaryValue (lit "application/x-www-form-urlencoded") = 0)
    (haccepts : Accepts page request.method (matchArguments path).2) (fields : HeaderTable) {chunks : List Bytes}
    (hchunks : chunks.flatten = ParameterEncoder.appended [] 0 fields) :
    ∃ r, (chunks.foldl handleData (create (some page) request root self path)).invoked = some (page, r) ∧
      r.arguments = (matchArguments path).1 ++ fields.filter fun f => f ≠ ⟨[], []⟩ := by
  have hpending := (pending_create_iff page request root self path).mpr haccepts
  have hvalid : ¬page.isValidMethod request.method = false := by
    intro hinvalid
    rw [Accepts, if_pos hinvalid] at haccepts
    exact hmethod.2 haccepts.1
  rw [Accepts, if_neg hvalid] at haccepts
  have hfound : ¬((matchArguments path).2 ≠ [] ∧ page.isValidPath = false) := by
    rintro ⟨hpath, hinvalid⟩
    rw [haccepts.resolve_left hpath] at hinvalid
    cases hinvalid
  have hrequest : (create (some page) request root self path).m_pageRequest =
      { PageRequest.create root self path with m_method := request.method, m_headers := request.headers } := by
    rw [create, init]
    dsimp only [configured, PageRequest.create]
    rw [if_neg hvalid]
    exact congrArg m_pageRequest (if_neg hfound)
  have hbody : (create (some page) request root self path).m_pageRequest.bodyStatus = .parseForm := by
    rw [hrequest, PageRequest.bodyStatus, if_neg (not_or.mpr hmethod)]
    dsimp only
    rw [htype]
    exact if_pos hform
  have harguments := PageRequest.arguments_form (by rw [hrequest]; rfl) hbody (by rw [hrequest]; rfl) chunks
  rw [ParameterEncoder.received_appended chunks fields hchunks] at harguments
  rw [foldl_handleData, invoked, m_page_create, if_pos hpending, Option.map_some]
  exact ⟨_, rfl, harguments⟩

theorem invoked_form_pieces :
    let page : Page := ⟨fun _ => true, true, fun r response => (r, response)⟩
    let field : HeaderField := ⟨lit "content-type", lit "Application/x-www-form-urlencoded; charset=UTF-8"⟩
    let fields : HeaderTable := [⟨lit "b", lit "1&1"⟩, ⟨[], []⟩, ⟨lit "c", lit "d"⟩]
    let request : Request :=
      { Request.create with method := lit "POST", headerParser := { HeaderParser.create with table := [field] } }
    ∃ r, ([lit "b=1%2", lit "61", lit "&=&c=d"].foldl handleData
        (create (some page) request [] [] (lit "?a=0"))).invoked = some (page, r) ∧
      r.arguments = (matchArguments (lit "?a=0")).1 ++ fields.filter fun f => f ≠ ⟨[], []⟩ := by
  intro page field fields request
  have htype : HeaderTable.get request.headers (lit "Content-Type") = some field := by decide
  exact invoked_form page [] [] (lit "?a=0") (by decide) htype (by decide) (.inr rfl) fields (by decide)

end Handler

/-! ### The page that is found -/

theorem strLt_of_shorter {path a b : Bytes} (ha : a <+: path) (hb : b <+: path) (hlt : a.length < b.length) :
    strLt a b := by
  have hinitial : a <+: b := List.prefix_of_prefix_length_le ha hb hlt.le
  refine lt_of_le_of_ne (not_lt.mp (hinitial.map UInt8.toNat).le) fun heq => ?_
  rw [map_toNat_injective heq] at hlt
  exact lt_irrefl _ hlt

theorem findPage_eq_none {d : PageDispatcher} {selfPath : Bytes} :
    d.findPage selfPath = none ↔ ∀ e ∈ d.m_pages.entries, matchPath selfPath e.1 = none := by
  rw [findPage, SortedMap.findLast?_eq_none]
  simp only [Option.map_eq_none_iff]

theorem findPage_eq_some {d : PageDispatcher} {selfPath p rest : Bytes} {page : Page}
    (h : d.findPage selfPath = some ((p, page), rest)) :
    (p, page) ∈ d.m_pages.entries ∧ matchPath selfPath p = some rest ∧
      ∀ e ∈ d.m_pages.entries, matchPath selfPath e.1 ≠ none → e.1.length ≤ p.length := by
  obtain ⟨e, he, hmatch, hgreatest⟩ := SortedMap.findLast?_eq_some h
  obtain ⟨path, hpath, heq⟩ := Option.map_eq_some_iff.mp hmatch
  obtain ⟨rfl, rfl⟩ := Prod.mk.inj heq
  have hinitial : ∀ {q rest}, matchPath selfPath q = some rest → q <+: selfPath :=
    fun hq => ⟨_, (eq_append_of_matchPath hq).symm⟩
  refine ⟨he, hpath, fun e' he' hmatch' => not_lt.mp fun hlonger => ?_⟩
  obtain ⟨rest', hrest'⟩ := Option.ne_none_iff_exists'.mp hmatch'
  refine hgreatest e' he' ?_ (strLt_of_shorter (hinitial hpath) (hinitial hrest') hlonger)
  rw [hrest']
  exact Option.some_ne_none _

/-- **The longest match wins.** If a registered path matches, the longest one gets the request, with the remainder of
the path; otherwise no page is invoked. -/
theorem createNewResponse_longest (d : PageDispatcher) (request : Request) :
    (∀ selfPath, request.matchPath d.m_prefix = some selfPath →
      (∃ e ∈ d.m_pages.entries, matchPath selfPath e.1 ≠ none) →
      ∃ p page rest, (p, page) ∈ d.m_pages.entries ∧ matchPath selfPath p = some rest ∧ selfPath = p ++ rest ∧
        (∀ e ∈ d.m_pages.entries, matchPath selfPath e.1 ≠ none → e.1.length ≤ p.length) ∧
        d.createNewResponse request = some (.create (some page) request d.m_prefix p rest) ∧
        ∀ chunks : List Bytes,
          (∀ page' r,
            (chunks.foldl Handler.handleData (.create (some page) request d.m_prefix p rest)).invoked =
              some (page', r) →
            page' = page ∧ r.m_rootPath = d.m_prefix ∧ r.m_selfPath = p ∧ r.m_path = (matchArguments rest).2) ∧
          ((chunks.foldl Handler.handleData (.create (some page) request d.m_prefix p rest)).invoked ≠ none ↔
            Handler.Accepts page request.method (matchArguments rest).2)) ∧
    ((∀ selfPath, request.matchPath d.m_prefix = some selfPath →
        ∀ e ∈ d.m_pages.entries, matchPath selfPath e.1 = none) →
      ∀ h, d.createNewResponse request = some h →
        ∀ chunks : List Bytes, (chunks.foldl Handler.handleData h).invoked = none) := by
  constructor
  · rintro selfPath hself ⟨e, he, hmatch⟩
    have hfound : d.findPage selfPath ≠ none := fun hnone => hmatch (findPage_eq_none.mp hnone e he)
    obtain ⟨⟨⟨p, page⟩, rest⟩, hfind⟩ := Option.ne_none_iff_exists'.mp hfound
    obtain ⟨hmem, hrest, hlongest⟩ := findPage_eq_some hfind
    refine ⟨p, page, rest, hmem, hrest, eq_append_of_matchPath hrest, hlongest, ?_, fun chunks => ?_⟩
    · simp only [createNewResponse, hself, hfind]
    · exact Handler.invoked_create page request d.m_prefix p rest chunks
  · intro hnone h hcreate chunks
    rw [createNewResponse] at hcreate
    split at hcreate
    · rename_i selfPath hself
      rw [findPage_eq_none.mpr (hnone selfPath hself)] at hcreate
      dsimp only at hcreate
      split_ifs at hcreate
      rw [← Option.some.inj hcreate]
      exact Handler.invoked_create_none request d.m_prefix [] [] chunks
    · cases hcreate

theorem createNewResponse_longest_subdirectory :
    let page : Page := ⟨fun _ => true, true, fun r response => (r, response)⟩
    let d := ((PageDispatcher.create (lit "/p")).addNewPage (lit "/dir") page).addNewPage (lit "/dir/sub") page
    let request : Request := { Request.create with method := lit "GET", path := lit "/p/dir/sub?q=1" }
    ∃ p page' rest, (lit "/dir/sub").length ≤ p.length ∧
      d.createNewResponse request = some (.create (some page') request (lit "/p") p rest) := by
  intro page d request
  have hmem : (lit "/dir/sub", page) ∈ d.m_pages.entries := mem_addNewPage.mpr (.inl rfl)
  obtain ⟨p, page', rest, -, -, -, hlongest, hcreate, -⟩ :=
    (createNewResponse_longest d request).1 (lit "/dir/sub?q=1") (by decide) ⟨_, hmem, by decide⟩
  exact ⟨p, page', rest, hlongest _ hmem (by decide), hcreate⟩

end PageDispatcher

end Http

end Net

end Afl
