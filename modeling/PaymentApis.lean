import PaymentApis.Lib.ReadCommitted
import PaymentApis.Lib.Atomic
import PaymentApis.Lib.Decimal
import PaymentApis.Lib.Double
import PaymentApis.Lib.Shortest
import PaymentApis.Errors
import PaymentApis.Statements
import PaymentApis.Services
import PaymentApis.Serial
import PaymentApis.Settlement
import PaymentApis.Bank
import PaymentApis.Intents
import PaymentApis.Optimistic
import PaymentApis.Custody
import PaymentApis.Lib.Conduct
import PaymentApis.Conducts
import PaymentApis.Idempotency
import PaymentApis.Postings
import PaymentApis.PayoutRows
import PaymentApis.Lease
import PaymentApis.Isolation
import PaymentApis.Lib.Window
import PaymentApis.Conflicts
import PaymentApis.Culprits
import PaymentApis.Lib.Deadlock
import PaymentApis.Locks
import PaymentApis.Republication
import PaymentApis.Lib.Json
import PaymentApis.Fingerprint
import PaymentApis.Migrations
import PaymentApis.Lib.Fifo
import PaymentApis.Backoff
import PaymentApis.Lib.Closing
import PaymentApis.Orphans
import PaymentApis.Transients
import PaymentApis.Independence
import PaymentApis.Answers
import PaymentApis.Sweeps
import PaymentApis.Amounts
import PaymentApis.Lib.Under
import PaymentApis.Requests
import PaymentApis.Ranges
import PaymentApis.WebhookWorker
import PaymentApis.Deliveries
import PaymentApis.InTime
import PaymentApis.Attempts
import PaymentApis.Backlog
import PaymentApis.Fates
import PaymentApis.Chains
import PaymentApis.Origins
import PaymentApis.Finality
import PaymentApis.Contents
import PaymentApis.Truths
import PaymentApis.Lib.Beside
import PaymentApis.EndToEnd
import PaymentApis.Auth
import PaymentApis.Sessions
import PaymentApis.Ownership
