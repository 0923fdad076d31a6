import ContractIntel.Laws.Jobs.Queue
import ContractIntel.Laws.Text.Chunking
import ContractIntel.Laws.Text.Diffing
import ContractIntel.Services.ChangeReport
import ContractIntel.Laws.Services.Documents
import ContractIntel.Laws.Services.Workers
import ContractIntel.Laws.Store.Jobs
import ContractIntel.Laws.Services.Enqueue
import ContractIntel.Laws.Services.Ingestion
import ContractIntel.Lib.Blame
import ContractIntel.Laws.Services.Outcomes
import ContractIntel.Laws.Services.Embedding
import ContractIntel.Laws.Services.Settling
import ContractIntel.Laws.Services.IngestionHandler
import ContractIntel.Laws.Services.Extraction
import ContractIntel.Services.ReviewQueue
import ContractIntel.Laws.Services.Impact
import ContractIntel.Laws.Services.ChangeReport
import ContractIntel.Laws.Services.ReviewQueue
import ContractIntel.Laws.Services.ModelHandlers
import ContractIntel.Laws.Services.Party
import ContractIntel.Laws.Services.Resolution
import ContractIntel.Laws.Services.Links
import ContractIntel.Laws.Services.Deletion
import ContractIntel.Laws.Services.Orphans
import ContractIntel.Laws.Store.Agreement
import ContractIntel.Laws.Store.Tenant
import ContractIntel.Services.Requests
import ContractIntel.Laws.Services.Isolation
import ContractIntel.Laws.Services.Custody
import ContractIntel.Laws.Services.Statuses
import ContractIntel.Laws.Services.Routing
import ContractIntel.Laws.Text.Paragraphs
import ContractIntel.Laws.Text.Sections
import ContractIntel.Laws.Text.Duality
import ContractIntel.Laws.Services.Excerpts
import ContractIntel.Laws.Text.Locality
import ContractIntel.Laws.Text.ClauseKeys
import ContractIntel.Laws.Text.Nesting
import ContractIntel.Laws.Text.Windows
import ContractIntel.Laws.Text.Redundancy
import ContractIntel.Laws.Services.Gates
import ContractIntel.Laws.Services.Spending
import ContractIntel.Lib.Journal
import ContractIntel.Laws.Services.AuditTrail
import ContractIntel.Laws.Text.Recovery
import ContractIntel.Laws.Text.Pages
import ContractIntel.Laws.Services.Explanations
import ContractIntel.Laws.Services.Candidates
import ContractIntel.Laws.Services.Fusion
import ContractIntel.Laws.Services.Alignment
import ContractIntel.Laws.Services.Uploads
import ContractIntel.Laws.Auth.RateLimit
import ContractIntel.Laws.Evals.Harness
import ContractIntel.Laws.Llm.Tools
import ContractIntel.Laws.Web.ReviewEdit
import ContractIntel.Laws.Web.ReportMarkdown
import ContractIntel.Laws.Services.Overtaking
import ContractIntel.Laws.Services.Worker
import ContractIntel.Auth.Verifier
import ContractIntel.Api.Endpoints
import ContractIntel.Laws.Api.Responses
import ContractIntel.Laws.Api.Failures
import ContractIntel.Api.Deployment
import ContractIntel.Laws.Services.Calls
import ContractIntel.Laws.Api.Authority
import ContractIntel.Laws.Api.Isolation
import ContractIntel.Lib.Refinement
import ContractIntel.Lib.Sides
import ContractIntel.Storage.Local
import ContractIntel.Laws.Storage.Disk
import ContractIntel.Laws.Storage.Local
import ContractIntel.Laws.Api.Addresses
import ContractIntel.Laws.Services.Provenance
import ContractIntel.Laws.Services.Derivation
import ContractIntel.Laws.Api.Provenance
