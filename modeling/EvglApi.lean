import EvglApi.Overtaking
import EvglApi.TokenRoundTrip
import EvglApi.Merging
import EvglApi.CompactFormat
import EvglApi.Acceptance
import EvglApi.WebhookEndpoint
import EvglApi.RetriesAgree
import EvglApi.Noninterference
import EvglApi.Classification
import EvglApi.Backing
import EvglApi.Sales
import EvglApi.UsableKeys
import EvglApi.Authenticity
import EvglApi.Vetting
import EvglApi.Enqueue
import EvglApi.WorkerRule
import EvglApi.WebSocket
import EvglApi.Summaries
import EvglApi.Handover
import EvglApi.Relay
import EvglApi.EventFeed
import EvglApi.Completion
import EvglApi.Locks
import EvglApi.Fulfilment
import EvglApi.Recall
import EvglApi.Retention
import EvglApi.DotenvModes
